import S8000.Sadie.ReadCall

namespace S8000.Sadie

open Foundation Foundation.Bytes Serial

/-- The tracks are numbered from zero, there is one, and no record is empty. -/
structure Tape.WellFormed (t : Tape) : Prop where
  contiguous : ∃ n, 0 < n ∧ ∀ track, (t.tracks.get? track).isSome ↔ track < n
  nonempty : ∀ track file records, t.records? track file = some records → ∀ r ∈ records, r ≠ []

/-- Track, file and record are all `None`, or they stand on the tape. -/
def SadieServer.OnTape (t : Tape) (s : SadieServer) : Prop :=
  (s.track = none ∧ s.file = none ∧ s.record = none) ∨
    ∃ track file record, s.track = some track ∧ s.file = some file ∧ s.record = some record ∧
      t.addressable track file record

/-- A state of `serve` that is still on the tape and has not met an unexpected exception. -/
structure Session.Sound (t : Tape) (σ : Session) : Prop where
  onTape : σ.server.OnTape t
  running : σ.waiting ≠ .crashed

section Sound

variable {t : Tape} {s : SadieServer}

theorem sound_answer (h : s.OnTape t) (b : Byte) : (s.answer b).1.Sound t := ⟨h, by simp [SadieServer.answer]⟩

theorem sound_legacyOpen (ht : t.WellFormed) (h : s.OnTape t) (request : List Byte) :
    (s.legacyOpen t request).1.Sound t := by
  obtain ⟨n, hn, htracks⟩ := ht.contiguous
  obtain ⟨files, hfiles⟩ := Option.isSome_iff_exists.mp ((htracks 0).mpr hn)
  rw [SadieServer.legacyOpen]
  simp only [hfiles]
  split
  · exact sound_answer h can
  split
  · exact sound_answer h can
  rename_i hvalid
  have hlt : (request.getD 1 0).toNat < files.length := by
    by_contra hge
    exact hvalid (.inl (by omega))
  obtain ⟨stream, hstream⟩ : ∃ stream, t.logicalFile 0 (request.getD 1 0).toNat = some stream := by
    rw [Tape.logicalFile]
    split
    · exact ⟨_, rfl⟩
    split
    · exact ⟨_, rfl⟩
    exact ⟨_, by rw [hfiles, Option.bind_some, List.getElem?_eq_getElem hlt, Option.map_some]⟩
  have hopen : { s with stream := some stream, streamPosition := 0 }.OnTape t := h
  simp only [hstream]
  exact sound_answer hopen Serial.ack

theorem sound_position (h : s.OnTape t) (request : List Byte) :
    (s.position t request).1.Sound t := by
  rw [SadieServer.position]
  split
  · exact sound_answer h can
  · rename_i hvalid
    have haddr := not_not.mp fun hno ↦ hvalid (.inr (.inr hno))
    exact sound_answer (.inr ⟨_, _, _, rfl, rfl, rfl, haddr⟩) Serial.ack

theorem sound_legacyRead (h : s.OnTape t) (stream request : List Byte) :
    (s.legacyRead stream request).1.Sound t := by
  rw [SadieServer.legacyRead]
  simp only
  split
  · exact sound_answer h can
  split
  · exact sound_answer h Serial.eot
  · exact ⟨h, Waiting.noConfusion⟩

/-- The record of a read request, cut to what was asked for. -/
def Current (t : Tape) (s : SadieServer) (maximum : ℕ) (payload : List Byte) : Prop :=
  ∃ track file record records data, s.track = some track ∧ s.file = some file ∧
    s.record = some record ∧ t.records? track file = some records ∧
    records[record]? = some data ∧ payload = data.take maximum

/-- The answers to a request for a record. -/
inductive RecordAnswer (t : Tape) (s : SadieServer) (maximum : ℕ) : Session × List Byte → Prop
  | refused : RecordAnswer t s maximum (⟨s, .command⟩, [can])
  | eof {track file record : ℕ} {records : List (List Byte)} : s.track = some track →
    s.file = some file → s.record = some record → t.records? track file = some records →
    record = records.length → RecordAnswer t s maximum (⟨s, .eof⟩, [Serial.eot])
  | record {record : ℕ} {payload : List Byte} : Current t s maximum payload → payload ≠ [] →
    payload.length < 65536 → s.record = some record → { s with record := some (record + 1) }.OnTape t →
    RecordAnswer t s maximum
      (⟨{ s with record := some (record + 1) }, .header payload⟩, lengthHeader payload)

theorem recordRead_answer (ht : t.WellFormed) (h : s.OnTape t) (request : List Byte) :
    RecordAnswer t s (word (request.getD 0 0) (request.getD 1 0)).toNat (s.recordRead t request) := by
  rw [SadieServer.recordRead]
  obtain ⟨htrack, -, -⟩ | ⟨track, file, record, htrack, hfile, hrecord, records, hrecords, hbound⟩ := h
  · simp only [htrack]
    exact .refused
  obtain ⟨stream, streamPosition, _, _, _⟩ := s
  subst htrack hfile hrecord
  simp only [Option.bind_some, hrecords]
  split
  · exact .refused
  rename_i hvalid
  split
  · rename_i heq
    exact .eof rfl rfl rfl hrecords heq
  · rename_i hne
    have hlt : record < records.length := by omega
    have hget : records[record]? = some records[record] := List.getElem?_eq_getElem hlt
    simp only [hget]
    refine .record ⟨track, file, record, records, _, rfl, rfl, rfl, hrecords, hget, rfl⟩ ?_
      ((List.length_take_le _ _).trans_lt (BitVec.isLt _)) rfl
      (.inr ⟨track, file, record + 1, rfl, rfl, rfl, records, hrecords, hlt⟩)
    have hdata := ht.nonempty track file records hrecords _ (List.getElem_mem hlt)
    have hmaximum : (word (request.getD 0 0) (request.getD 1 0)).toNat ≠ 0 := fun h0 ↦ hvalid (.inl h0)
    intro hnil
    rcases List.take_eq_nil_iff.mp hnil with h0 | h0
    · exact hmaximum h0
    · exact hdata h0

theorem RecordAnswer.sound {maximum : ℕ} {answer : Session × List Byte}
    (h : RecordAnswer t s maximum answer) (hs : s.OnTape t) : answer.1.Sound t := by
  cases h with
  | refused => exact ⟨hs, Waiting.noConfusion⟩
  | eof => exact ⟨hs, Waiting.noConfusion⟩
  | record _ _ _ _ hnext => exact ⟨hnext, Waiting.noConfusion⟩

theorem sound_handle (ht : t.WellFormed) (h : s.OnTape t) (kind : RequestKind) (got : List Byte) :
    (s.handle t kind got).1.Sound t := by
  cases kind with
  | magic =>
    rw [SadieServer.handle]
    split
    · exact ⟨h, Waiting.noConfusion⟩
    split
    · exact ⟨h, Waiting.noConfusion⟩
    · exact sound_answer h can
  | legacyOpen => exact sound_legacyOpen ht h got
  | position => exact sound_position h got
  | read =>
    rw [SadieServer.handle]
    split
    · exact sound_legacyRead h _ got
    · exact (recordRead_answer ht h got).sound h

theorem sound_command (h : s.OnTape t) (b : Byte) : (s.command b).1.Sound t := by
  rw [SadieServer.command]
  split
  · exact ⟨h, Waiting.noConfusion⟩
  split
  · exact ⟨h, Waiting.noConfusion⟩
  split
  · exact ⟨.inl ⟨rfl, rfl, rfl⟩, Waiting.noConfusion⟩
  · exact ⟨h, Waiting.noConfusion⟩

theorem sound_send (h : s.OnTape t) (payload : List Byte) (i : ℕ) :
    (s.send payload i).1.Sound t := by
  rw [SadieServer.send]
  split
  · exact ⟨h, Waiting.noConfusion⟩
  · exact ⟨h, Waiting.noConfusion⟩

/-- One byte of the client. -/
theorem sound_receive (ht : t.WellFormed) {σ : Session} (h : σ.Sound t) (b : Byte) :
    (σ.receive t b).1.Sound t := by
  obtain ⟨s, w⟩ := σ
  have hs : s.OnTape t := h.onTape
  have hstop : (⟨s, .stopped⟩ : Session).Sound t := ⟨hs, Waiting.noConfusion⟩
  have hcommand : (⟨s, .command⟩ : Session).Sound t := ⟨hs, Waiting.noConfusion⟩
  cases w with
  | command => exact sound_command hs b
  | request kind got =>
    simp only [Session.receive]
    split
    · exact ⟨hs, Waiting.noConfusion⟩
    · exact sound_handle ht hs kind _
  | legacyReply payload =>
    simp only [Session.receive]
    split
    · exact ⟨hs, Waiting.noConfusion⟩
    split
    · exact h
    · exact hstop
  | eof =>
    simp only [Session.receive]
    split
    · exact hcommand
    · exact hstop
  | header payload =>
    simp only [Session.receive]
    split
    · exact sound_send hs payload 0
    · exact hstop
  | block payload i =>
    simp only [Session.receive]
    split
    · exact h
    split
    · exact sound_send hs payload (i + 1)
    split
    · exact h
    · exact hstop
  | eot =>
    simp only [Session.receive]
    split
    · exact hcommand
    · exact hstop
  | stopped => exact h
  | crashed => exact h

theorem sound_feed (ht : t.WellFormed) {σ : Session} (h : σ.Sound t) (bytes : List Byte) :
    (σ.feed t bytes).1.Sound t := by
  induction bytes generalizing σ with
  | nil => exact h
  | cons b bytes ih => exact ih (sound_receive ht h b)

end Sound

section Delivery

/-- A payload with zeros up to whole packets. -/
def padded (payload : List Byte) : List Byte := ljust payload (blocks payload * xmodemBlockSize)

/-- Packet `i` of a padded payload; the numbers count from one and wrap. -/
def dataPacket (payload : List Byte) (i : ℕ) : List Byte :=
  xmodemPacket (BitVec.ofNat 8 (i + 1)) (blockOf (padded payload) i)

/-- The packets up to number `i` have been written in turn, each of them once or more. -/
inductive Sent (payload : List Byte) : ℕ → List Byte → Prop
  | first : Sent payload 0 (dataPacket payload 0)
  | again {i : ℕ} {out : List Byte} : Sent payload i out →
    Sent payload i (out ++ dataPacket payload i)
  | next {i : ℕ} {out : List Byte} : Sent payload i out → i + 1 < blocks payload →
    Sent payload (i + 1) (out ++ dataPacket payload (i + 1))

/-- What the server has written behind the header of a record, and where it waits. -/
inductive Delivery (payload : List Byte) : Waiting → List Byte → Prop
  | header : Delivery payload (.header payload) []
  | block {i : ℕ} {out : List Byte} : Sent payload i out → Delivery payload (.block payload i) out
  | eot {i : ℕ} {out : List Byte} : Sent payload i out → i + 1 = blocks payload →
    Delivery payload .eot (out ++ [Serial.eot])
  | done {out : List Byte} : Delivery payload .eot out → Delivery payload .command out
  | stopped {w : Waiting} {out : List Byte} : Delivery payload w out → Delivery payload .stopped out

variable {payload : List Byte}

theorem recordPacket_eq {i : ℕ} (hi : i * xmodemBlockSize < payload.length) :
    recordPacket payload i = dataPacket payload i := by
  have hblocks : payload.length ≤ blocks payload * xmodemBlockSize := by
    simp only [blocks, xmodemBlockSize]
    omega
  have hlast : (i + 1) * xmodemBlockSize ≤ blocks payload * xmodemBlockSize := by
    simp only [blocks, xmodemBlockSize] at *
    omega
  rw [recordPacket, packet, dataPacket]
  congr 1
  rw [ljust, blockOf, blockOf, padded, ljust, List.drop_append_of_le_length hi.le, List.take_append]
  congr 1
  rw [List.length_take, List.length_drop, List.take_replicate]
  congr 1
  simp only [xmodemBlockSize] at *
  omega

theorem blocks_pos (h : payload ≠ []) : 0 < blocks payload := by
  have hpos := List.length_pos_iff.mpr h
  simp only [blocks, xmodemBlockSize]
  omega

variable {t : Tape}

theorem Sent.lt_blocks {i : ℕ} {out : List Byte} (h : Sent payload i out) (hne : payload ≠ []) :
    i < blocks payload := by
  induction h with
  | first => exact blocks_pos hne
  | again _ ih => exact ih
  | next _ hi _ => exact hi

/-- Behind packet `i` comes the next one, or the end of the record. -/
theorem Sent.send {i : ℕ} {out : List Byte} (h : Sent payload i out) (hne : payload ≠ [])
    (s : SadieServer) :
    Delivery payload (s.send payload (i + 1)).1.waiting (out ++ (s.send payload (i + 1)).2) := by
  have hi := h.lt_blocks hne
  rw [SadieServer.send]
  split
  · rename_i hlt
    rw [recordPacket_eq hlt]
    exact .block (h.next ((lt_blocks_iff _).mpr hlt))
  · rename_i hge
    exact .eot h (Nat.le_antisymm hi (Nat.le_of_not_lt fun h' ↦ hge ((lt_blocks_iff _).mp h')))

/-- One byte of the client while a record is delivered. -/
theorem Delivery.receive {σ : Session} {out : List Byte} (h : Delivery payload σ.waiting out)
    (hne : payload ≠ []) (hbusy : σ.waiting ≠ .command) (b : Byte) :
    Delivery payload (σ.receive t b).1.waiting (out ++ (σ.receive t b).2) := by
  obtain ⟨s, w⟩ := σ
  simp only at h hbusy
  have hstop : Delivery payload .stopped (out ++ []) := by
    rw [List.append_nil]
    exact .stopped h
  cases h with
  | header =>
    simp only [Session.receive]
    split
    · have h0 := (lt_blocks_iff 0).mp (blocks_pos hne)
      rw [SadieServer.send, if_pos h0, recordPacket_eq h0]
      exact .block .first
    · exact hstop
  | @block i out hsent =>
    simp only [Session.receive]
    split
    · rw [List.append_nil]
      exact .block hsent
    split
    · exact hsent.send hne s
    split
    · rw [recordPacket_eq ((lt_blocks_iff i).mp (hsent.lt_blocks hne))]
      exact .block hsent.again
    · exact hstop
  | eot hsent hlast =>
    simp only [Session.receive]
    split
    · rw [List.append_nil]
      exact .done (.eot hsent hlast)
    · exact hstop
  | done => exact absurd rfl hbusy
  | stopped h => exact hstop

/-- The run behind the header, up to the next command. -/
theorem Delivery.feed {σ : Session} {out : List Byte} (h : Delivery payload σ.waiting out)
    (hne : payload ≠ []) (bytes : List Byte) :
    ∃ p q, bytes = p ++ q ∧ Delivery payload (σ.feed t p).1.waiting (out ++ (σ.feed t p).2) ∧
      (q = [] ∨ (σ.feed t p).1.waiting = .command) := by
  induction bytes generalizing σ out with
  | nil => exact ⟨[], [], rfl, by rwa [Session.feed, List.append_nil], .inl rfl⟩
  | cons b bytes ih =>
    by_cases hbusy : σ.waiting = .command
    · exact ⟨[], b :: bytes, rfl, by rwa [Session.feed, List.append_nil], .inr hbusy⟩
    · obtain ⟨p, q, rfl, hp, hq⟩ := ih (h.receive (t := t) hne hbusy b)
      refine ⟨b :: p, q, rfl, ?_, hq⟩
      rw [Session.feed]
      rwa [List.append_assoc] at hp

end Delivery

section Run

variable {t : Tape} {s : SadieServer}

theorem feed_recordRead (hstream : s.stream = none) (hi lo sum : Byte) :
    Session.feed t ⟨s, .command⟩ [charR, hi, lo, sum] = s.recordRead t [hi, lo, sum] := by
  have hR : charR ≠ soh := by decide
  simp [Session.feed, Session.receive, SadieServer.command, hR, RequestKind.size,
    SadieServer.handle, hstream]

theorem RecordAnswer.delivery {maximum : ℕ} {answer : Session × List Byte}
    (h : RecordAnswer t s maximum answer) {payload : List Byte}
    (hw : answer.1.waiting = .header payload) (bytes : List Byte) :
    ∃ p q, bytes = p ++ q ∧
      Delivery payload (answer.1.feed t p).1.waiting (answer.1.feed t p).2 ∧
      (q = [] ∨ (answer.1.feed t p).1.waiting = .command) := by
  have hheader : Delivery payload answer.1.waiting [] := by
    rw [hw]
    exact .header
  have hne : payload ≠ [] := by
    cases h with
    | refused => cases hw
    | eof => cases hw
    | record _ hne _ _ _ =>
      cases hw
      exact hne
  simpa using hheader.feed hne bytes

/-- Whatever the client sends, the server stays on its tape, stops only by itself, and answers a
request for a record by the header of the current one and its packets. -/
theorem server_stays_on_tape (t : Tape) (ht : t.WellFormed) (s₀ : SadieServer) (h₀ : s₀.OnTape t)
    (bytes : List Byte) :
    (Session.feed t ⟨s₀, .command⟩ bytes).1.Sound t ∧
      ∀ s, (Session.feed t ⟨s₀, .command⟩ bytes).1 = ⟨s, .command⟩ → s.stream = none →
        ∀ hi lo sum : Byte,
          RecordAnswer t s (word hi lo).toNat (Session.feed t ⟨s, .command⟩ [charR, hi, lo, sum]) ∧
          ∀ s' payload post,
            (Session.feed t ⟨s, .command⟩ [charR, hi, lo, sum]).1 = ⟨s', .header payload⟩ →
            ∃ p q, post = p ++ q ∧
              Delivery payload (Session.feed t ⟨s', .header payload⟩ p).1.waiting
                (Session.feed t ⟨s', .header payload⟩ p).2 ∧
              (q = [] ∨ (Session.feed t ⟨s', .header payload⟩ p).1.waiting = .command) := by
  have hstart : Session.Sound t ⟨s₀, .command⟩ := ⟨h₀, Waiting.noConfusion⟩
  have hsound := sound_feed ht hstart bytes
  refine ⟨hsound, ?_⟩
  intro s hs hstream hi lo sum
  have hanswer : RecordAnswer t s (word hi lo).toNat
      (Session.feed t ⟨s, .command⟩ [charR, hi, lo, sum]) := by
    rw [feed_recordRead hstream]
    exact recordRead_answer ht (by rw [hs] at hsound; exact hsound.onTape) [hi, lo, sum]
  refine ⟨hanswer, fun s' payload post hheader ↦ ?_⟩
  have hw : (Session.feed t ⟨s, .command⟩ [charR, hi, lo, sum]).1.waiting = .header payload := by
    rw [hheader]
  have hdelivery := hanswer.delivery hw post
  rwa [hheader] at hdelivery

theorem twoRecordTape_track (track : ℕ) :
    twoRecordTape.tracks.get? track = if 0 = track then some [twoRecords] else none :=
  Dict.get?_set ∅ 0 track [twoRecords]

theorem twoRecordTape_wellFormed : twoRecordTape.WellFormed where
  contiguous := by
    refine ⟨1, Nat.one_pos, fun track ↦ ?_⟩
    rw [twoRecordTape_track, Nat.lt_one_iff]
    split <;> simp_all [eq_comm]
  nonempty := by
    intro track file records hrecords r hr
    rw [Tape.records?, twoRecordTape_track] at hrecords
    split at hrecords
    · obtain rfl : twoRecords = records := by
        cases file with
        | zero => exact Option.some.inj hrecords
        | succ file => cases hrecords
      have hall : ∀ r ∈ twoRecords, r ≠ [] := by decide
      exact hall r hr
    · cases hrecords

/-- After a position request the second record of the file is delivered. -/
theorem server_stays_on_tape_twoRecords :
    (Session.feed twoRecordTape ⟨{}, .command⟩
      [soh, charS, charD, 1, 0, 0, 0, 1, xorAll [soh, charS, charD, 1, 0, 0, 0, 1]]).1.Sound
        twoRecordTape ∧
    ∃ p q, [crcRequest, nak, Serial.ack, Serial.ack] = p ++ q ∧
      Delivery [4, 5] (Session.feed twoRecordTape
        ⟨{ track := some 0, file := some 0, record := some 2 }, .header [4, 5]⟩ p).1.waiting
        (Session.feed twoRecordTape
          ⟨{ track := some 0, file := some 0, record := some 2 }, .header [4, 5]⟩ p).2 ∧
      (q = [] ∨ (Session.feed twoRecordTape
        ⟨{ track := some 0, file := some 0, record := some 2 }, .header [4, 5]⟩ p).1.waiting =
          .command) := by
  have h := server_stays_on_tape twoRecordTape twoRecordTape_wellFormed {} (.inl ⟨rfl, rfl, rfl⟩)
    [soh, charS, charD, 1, 0, 0, 0, 1, xorAll [soh, charS, charD, 1, 0, 0, 0, 1]]
  refine ⟨h.1, ?_⟩
  exact (h.2 { track := some 0, file := some 0, record := some 1 } (by rfl) rfl 0 2
    (xorAll [charR, 0, 2])).2 _ _ _ (by rfl)

end Run

end S8000.Sadie
