import S8000.Sadie.ReadCall

namespace S8000.Serial.Cpu

open Foundation Foundation.Bytes

/-- The core has sent nothing but the acknowledgement of a repeated block. -/
def Quiet (m : Cpu) (q : Exit × Cpu) : Prop :=
  q.2.tx = m.tx ++ (if q.1 = .duplicate then [Serial.ack] else [])

theorem quiet_of_tx {m m' : Cpu} {exit : Exit} (h : m'.tx = m.tx) (hexit : exit ≠ .duplicate) :
    Quiet m (exit, m') := by
  rw [Quiet, if_neg hexit, List.append_nil]
  exact h

theorem Quiet.congr {m m' : Cpu} {q : Exit × Cpu} (h : Quiet m' q) (htx : m'.tx = m.tx) :
    Quiet m q := by
  rw [Quiet, ← htx]
  exact h

theorem checkCrc_quiet (m : Cpu) {k : Cpu → Exit × Cpu} (hk : ∀ m', Quiet m' (k m')) :
    Quiet m (m.checkCrc k) := by
  have h1 := m.getByte_still.tx
  have h2 := m.getByte.getByte_still.tx
  rw [checkCrc]
  split
  · exact quiet_of_tx h1 (by decide)
  split
  · exact quiet_of_tx h1 (by decide)
  simp only
  split
  · exact quiet_of_tx (h2.trans h1) (by decide)
  split
  · exact quiet_of_tx (h2.trans h1) (by decide)
  · exact (hk _).congr (h2.trans h1)

theorem copy_quiet (n : ℕ) (m : Cpu) : Quiet m (copy n m) := by
  induction n generalizing m with
  | zero =>
    rw [copy]
    exact m.checkCrc_quiet fun m' ↦ quiet_of_tx rfl (by decide)
  | succ n ih =>
    rw [copy]
    simp only
    split
    · exact quiet_of_tx m.getByte_still.tx (by decide)
    · exact (ih _).congr (m.getByte.crcByte_still.tx.trans m.getByte_still.tx)

theorem discard_quiet (n : ℕ) (m : Cpu) : Quiet m (discard n m) := by
  induction n generalizing m with
  | zero =>
    rw [discard]
    exact m.checkCrc_quiet fun m' ↦ rfl
  | succ n ih =>
    rw [discard]
    simp only
    split
    · exact quiet_of_tx m.getByte_still.tx (by decide)
    · exact (ih _).congr (m.getByte.crcByte_still.tx.trans m.getByte_still.tx)

theorem dispatch_quiet (m : Cpu) : Quiet m m.dispatch := by
  rw [dispatch]
  simp only
  split
  · exact quiet_of_tx rfl (by decide)
  split
  · rw [newBlock]
    split
    · exact quiet_of_tx rfl (by decide)
    · exact (copy_quiet 128 _).congr rfl
  split
  · exact quiet_of_tx rfl (by decide)
  · exact (discard_quiet 128 _).congr rfl

theorem response_quiet (m : Cpu) : Quiet m m.response := by
  have h1 := m.getByte_still.tx
  have h2 := m.getByte.getByte_still.tx
  rw [response]
  simp only
  split
  · exact quiet_of_tx h1 (by decide)
  split
  · exact quiet_of_tx h1 (by decide)
  split
  · exact quiet_of_tx h1 (by decide)
  split
  · exact quiet_of_tx h1 (by decide)
  split
  · exact quiet_of_tx (h2.trans h1) (by decide)
  have h3 : ∀ m' : Cpu, m'.tx = m.getByte.getByte.tx → m'.getByte.tx = m.tx := fun m' h ↦
    (m'.getByte_still.tx.trans h).trans (h2.trans h1)
  split
  · exact quiet_of_tx (h3 _ rfl) (by decide)
  · exact (dispatch_quiet _).congr (h3 _ rfl)

end S8000.Serial.Cpu

namespace S8000.Sadie

open Foundation Foundation.Bytes Serial

section Driver

/-- What the driver does with the answer to a request. -/
theorem headerRound_cases (m : Cpu) :
    ((headerRound m).1 = .returned 0xFFFF ∧ (headerRound m).2.tx = m.tx) ∨
      (headerRound m).1 = .returned 0 ∨
      ((headerRound m).1 = .wait .packet ∧ (headerRound m).2.tx = m.tx ++ [crcRequest]) := by
  have h1 := m.getByte_still.tx
  rw [headerRound]
  simp only
  split
  · exact .inl ⟨rfl, h1⟩
  split
  · exact .inr (.inl rfl)
  split
  · exact .inl ⟨rfl, h1⟩
  have h2 := m.getByte.getByte_still.tx.trans h1
  split
  · exact .inl ⟨rfl, h2⟩
  have h3 : ∀ m' : Cpu, m'.tx = m.getByte.getByte.tx → m'.getByte.tx = m.tx := fun m' h ↦
    (m'.getByte_still.tx.trans h).trans h2
  split
  · exact .inl ⟨rfl, h3 _ rfl⟩
  split
  · exact .inl ⟨rfl, h3 _ rfl⟩
  · exact .inr (.inr ⟨rfl, congrArg (· ++ [crcRequest]) (h3 _ rfl)⟩)

theorem readNext_cases (m : Cpu) :
    (readNext m).1 = .returned 0 ∨
      ∃ maximum, maximum ≠ 0 ∧ (readNext m).1 = .wait .header ∧
        (readNext m).2.tx = m.tx ++ requestBytes maximum := by
  rw [readNext]
  split
  · exact .inl rfl
  rename_i hrem
  split
  · exact .inl rfl
  · refine .inr ⟨field m remaining, hrem, rfl, ?_⟩
    have hlow : m.r15 + (remaining + 1) = m.r15 + remaining + 1 := (BitVec.add_assoc _ _ _).symm
    simp only [putChecked, Cpu.putByte, high_word, low_word, requestBytes, field, Memory.readWord,
      hlow, xorAll]
    simp

theorem recordEot_cases (m : Cpu) :
    ((recordEot m).1 = .returned 0xFFFF ∧ (recordEot m).2.tx = m.tx) ∨
      (recordEot m).1 = .returned 0 ∨
      ∃ maximum, maximum ≠ 0 ∧ (recordEot m).1 = .wait .header ∧
        (recordEot m).2.tx = m.tx ++ Serial.ack :: requestBytes maximum := by
  rw [recordEot]
  split
  · exact .inl ⟨rfl, rfl⟩
  · refine .inr ?_
    obtain h | ⟨maximum, hmax, hout, htx⟩ := readNext_cases
      (setField (m.putByte Serial.ack) recordsLeft (field (m.putByte Serial.ack) recordsLeft - 1))
    · exact .inl h
    · refine .inr ⟨maximum, hmax, hout, ?_⟩
      rw [htx]
      simp [setField, Cpu.putByte]

theorem packetBad_cases (m : Cpu) :
    ((packetBad m).1 = .returned 0xFFFF ∧ (packetBad m).2.tx = m.tx) ∨
      ((packetBad m).1 = .wait .packet ∧ (packetBad m).2.tx = m.tx ++ [nak]) := by
  rw [packetBad]
  simp only
  split
  · exact .inl ⟨rfl, rfl⟩
  · exact .inr ⟨rfl, congrArg (· ++ [nak]) (Cpu.drain_still _).tx⟩

theorem packetCount_tx (m : Cpu) : (packetCount m).tx = m.tx := by
  rw [packetCount]
  simp only [setField]
  split <;> rfl

theorem packetValid_tx (M : Machine) :
    (packetValid M).1 = .wait .packet ∧
      (packetValid M).2.cpu.tx = M.cpu.tx ++ [traceBeforeStore, traceAfterStore, Serial.ack] := by
  refine ⟨rfl, ?_⟩
  have hcopy : (packetCopy M).cpu.tx = M.cpu.tx ++ [traceBeforeStore] :=
    (physicalByte_spec _ _).2.2.2.2.2.2
  have hcount := packetCount_tx ((packetCopy M).cpu.putByte traceAfterStore)
  simp only [packetValid, onCpu, packetAck, packetLoop, Cpu.putByte] at hcount ⊢
  rw [hcount, hcopy]
  simp

/-- What the driver does with a response, from an empty transmit line. -/
theorem packetRound_cases (M : Machine) (htx : M.cpu.tx = []) :
    ((round M .packet).1 = .returned 0xFFFF ∧ (round M .packet).2.cpu.tx = []) ∨
      (round M .packet).1 = .returned 0 ∨
      ((round M .packet).1 = .wait .packet ∧
        ((round M .packet).2.cpu.tx = [traceBeforeStore, traceAfterStore, Serial.ack] ∨
          (round M .packet).2.cpu.tx = [nak] ∨
          M.cpu.response.1 = .duplicate ∧ (round M .packet).2.cpu.tx = [Serial.ack])) ∨
      ∃ maximum, maximum ≠ 0 ∧ (round M .packet).1 = .wait .header ∧
        (round M .packet).2.cpu.tx = Serial.ack :: requestBytes maximum := by
  have hquiet := M.cpu.response_quiet
  rw [round]
  rcases hresponse : M.cpu.response with ⟨exit, m⟩
  rw [hresponse, Cpu.Quiet, htx, List.nil_append] at hquiet
  cases exit with
  | valid =>
    have h := packetValid_tx { M with cpu := m }
    refine .inr (.inr (.inl ⟨h.1, .inl ?_⟩))
    rw [h.2, show m.tx = [] from hquiet]
    rfl
  | duplicate => exact .inr (.inr (.inl ⟨rfl, .inr (.inr ⟨rfl, hquiet⟩)⟩))
  | bad =>
    obtain ⟨hout, htx'⟩ | ⟨hout, htx'⟩ := packetBad_cases m
    · exact .inl ⟨hout, htx'.trans hquiet⟩
    · exact .inr (.inr (.inl ⟨hout, .inr (.inl (by
        simp only [onCpu]
        rw [htx', show m.tx = [] from hquiet]
        rfl))⟩))
  | eot =>
    obtain ⟨hout, htx'⟩ | hout | ⟨maximum, hmax, hout, htx'⟩ := recordEot_cases m
    · exact .inl ⟨hout, htx'.trans hquiet⟩
    · exact .inr (.inl hout)
    · refine .inr (.inr (.inr ⟨maximum, hmax, hout, ?_⟩))
      simp only [onCpu]
      rw [htx', show m.tx = [] from hquiet]
      rfl
  | error => exact .inl ⟨rfl, hquiet⟩

end Driver

section Server

variable {t : Tape}

/-- The server stands in a file of the tape. -/
structure Serving (t : Tape) (s : SadieServer) : Prop where
  stream : s.stream = none
  place : ∃ p records, s.place = some p ∧ t.records? p.track p.file = some records ∧
    p.record ≤ records.length

/-- The places of `serve_record_read` at which the server can wait while the driver does. -/
inductive Held (t : Tape) : Stage → Session → Prop
  | stopped (stage : Stage) (s : SadieServer) : Held t stage ⟨s, .stopped⟩
  | header {s : SadieServer} (payload : List Byte) : Serving t s → Held t .header ⟨s, .header payload⟩
  | eof {s : SadieServer} : Serving t s → Held t .header ⟨s, .eof⟩
  | block {s : SadieServer} (payload : List Byte) (i : ℕ) : Serving t s →
    Held t .packet ⟨s, .block payload i⟩
  | eot {s : SadieServer} : Serving t s → Held t .packet ⟨s, .eot⟩

theorem feed_stopped (s : SadieServer) (bytes : List Byte) :
    Session.feed t ⟨s, .stopped⟩ bytes = (⟨s, .stopped⟩, []) := by
  induction bytes with
  | nil => rfl
  | cons b bytes ih =>
    rw [Session.feed]
    simp only [Session.receive, ih, List.nil_append]

theorem held_send {s : SadieServer} (h : Serving t s) (payload : List Byte) (i : ℕ) :
    Held t .packet (s.send payload i).1 := by
  rw [SadieServer.send]
  split
  · exact .block payload i h
  · exact .eot h

/-- A request of the driver makes the server announce a record or the end of the file. -/
theorem held_request {s : SadieServer} (h : Serving t s) {maximum : Word} (hmax : maximum ≠ 0) :
    Held t .header (Session.feed t ⟨s, .command⟩ (requestBytes maximum)).1 := by
  obtain ⟨p, records, hplace, hfile, hbound⟩ := h.place
  have hat : At t records p ⟨s, .command⟩ 0 := ⟨h.stream, hplace, hfile, hbound⟩
  rcases Nat.lt_or_eq_of_le hbound with hlt | heq
  · rw [feed_request_record hat hmax hlt]
    have hnext : At t records p ⟨{ s with record := some (p.record + (0 + 1)) }, .command⟩ (0 + 1) :=
      hat.next hlt
    exact .header _ ⟨hnext.stream, _, records, hnext.place, hfile, hlt⟩
  · rw [feed_request_eof hat hmax heq]
    exact .eof h

theorem held_cons {stage : Stage} {σ : Session} {b : Byte} {bytes : List Byte}
    (h : Held t stage ((σ.receive t b).1.feed t bytes).1) : Held t stage (σ.feed t (b :: bytes)).1 := by
  rw [Session.feed]
  exact h

/-- Behind a byte that it does not expect the server has stopped. -/
theorem held_unexpected {σ : Session} {b : Byte} {bytes : List Byte} {stage : Stage}
    (h : σ.receive t b = ({ σ with waiting := .stopped }, [])) :
    Held t stage (σ.feed t (b :: bytes)).1 := by
  refine held_cons ?_
  rw [h, feed_stopped]
  exact .stopped stage σ.server

variable {s : SadieServer} {payload : List Byte} {i : ℕ}

theorem held_crcRequest {σ : Session} (h : Held t .header σ) :
    Held t .packet (σ.feed t [crcRequest]).1 := by
  cases h with
  | stopped s =>
    rw [feed_stopped]
    exact .stopped _ _
  | header payload h => exact held_cons (held_send h payload 0)
  | eof h => exact held_unexpected rfl

theorem held_traces {σ : Session} (h : Held t .packet σ) (bytes : List Byte) :
    (∃ s, (σ.feed t (traceBeforeStore :: traceAfterStore :: bytes)).1 = ⟨s, .stopped⟩) ∨
      (∃ payload i, σ.waiting = .block payload i ∧
        σ.feed t (traceBeforeStore :: traceAfterStore :: bytes) = σ.feed t bytes) := by
  cases h with
  | stopped s =>
    rw [feed_stopped]
    exact .inl ⟨_, rfl⟩
  | block payload i h => exact .inr ⟨payload, i, rfl, feed_traces rfl bytes⟩
  | @eot s h =>
    refine .inl ⟨s, ?_⟩
    have hstop : Session.receive t ⟨s, .eot⟩ traceBeforeStore = (⟨s, .stopped⟩, []) := rfl
    rw [Session.feed, hstop, feed_stopped]

/-- An acknowledgement while a packet is on its way. -/
theorem held_ack_block {σ : Session} (h : Held t .packet σ) (hw : σ.waiting = .block payload i) :
    Held t .packet (σ.feed t [Serial.ack]).1 := by
  rw [feed_ack hw]
  cases h with
  | stopped s => cases hw
  | block payload i h => exact held_send h _ _
  | eot h => cases hw

theorem held_nak {σ : Session} (h : Held t .packet σ) : Held t .packet (σ.feed t [nak]).1 := by
  cases h with
  | stopped s =>
    rw [feed_stopped]
    exact .stopped _ _
  | block payload i h =>
    rw [feed_nak rfl]
    exact .block payload i h
  | eot h => exact held_unexpected rfl

/-- The next request follows the acknowledgement of the end of a record; behind that of a packet it
stops the server. -/
theorem held_ack_request {σ : Session} (h : Held t .packet σ) {maximum : Word} (hmax : maximum ≠ 0) :
    Held t .header (σ.feed t (Serial.ack :: requestBytes maximum)).1 ∧
      (∀ payload i, σ.waiting = .block payload i →
        Held t .header (σ.feed t (Serial.ack :: requestBytes maximum).dropLast).1) := by
  have hblock : ∀ {s : SadieServer} (payload : List Byte) (i : ℕ) (bytes : List Byte),
      Held t .header (Session.feed t ⟨s, .block payload i⟩ (Serial.ack :: charR :: bytes)).1 := by
    intro s payload i bytes
    have hack : Session.receive t ⟨s, .block payload i⟩ Serial.ack = s.send payload (i + 1) := rfl
    refine held_cons ?_
    rw [hack, SadieServer.send]
    split
    · exact held_unexpected rfl
    · exact held_unexpected rfl
  cases h with
  | stopped s =>
    rw [feed_stopped, feed_stopped]
    exact ⟨.stopped _ _, fun _ _ _ ↦ .stopped _ _⟩
  | block payload i h => exact ⟨hblock payload i _, fun _ _ _ ↦ hblock payload i _⟩
  | eot h =>
    refine ⟨held_cons (held_request h hmax), ?_⟩
    rintro payload i ⟨⟩

end Server

section Course

variable {t : Tape}

/-- What the line may do: any bytes and pauses may arrive in place of what the server has sent, but
no packet that it has not sent, and the last byte of the answer to a packet may be lost. -/
structure Link.Noisy (l : Link) (f : Fate) : Prop where
  invented : l.session.waiting = .eot → (l.hearing f).cpu.response.1 ≠ .duplicate
  lost : f.lost = true → ∃ payload i, l.session.waiting = .block payload i

/-- The states of a call over a noisy line. -/
inductive Link.Course (t : Tape) (l₀ : Link) : Link → Prop
  | start : Course t l₀ l₀
  | turn {l : Link} {stage : Stage} {f : Fate} : Course t l₀ l → l.outcome = .wait stage →
    l.Noisy f → Course t l₀ (l.turn t stage f)

/-- While the driver waits, and when it has given up, the server is held. -/
structure Attended (t : Tape) (l : Link) : Prop where
  waiting : ∀ stage, l.outcome = .wait stage → Held t stage l.session
  left : l.outcome = .returned 0xFFFF → ∃ stage, Held t stage l.session

theorem attended_wait {l : Link} {stage : Stage} (hout : l.outcome = .wait stage)
    (h : Held t stage l.session) : Attended t l := by
  refine ⟨fun stage' hout' ↦ ?_, fun hleft ↦ ?_⟩
  · rw [hout] at hout'
    cases hout'
    exact h
  · rw [hout] at hleft
    cases hleft

theorem attended_done {l : Link} (hout : l.outcome = .returned 0) : Attended t l := by
  refine ⟨fun stage hwait ↦ ?_, fun hleft ↦ ?_⟩
  · rw [hout] at hwait
    cases hwait
  · rw [hout] at hleft
    cases hleft

theorem attended_left {l : Link} (stage : Stage) (hout : l.outcome = .returned 0xFFFF)
    (h : Held t stage l.session) : Attended t l := by
  refine ⟨fun stage' hwait ↦ ?_, fun _ ↦ ⟨stage, h⟩⟩
  rw [hout] at hwait
  cases hwait

variable {l : Link} {f : Fate}

theorem Held.turn_header (h : Held t .header l.session) (hf : l.Noisy f) :
    Attended t (l.turn t .header f) := by
  have hlost : f.lost = false := by
    by_contra hl
    obtain ⟨payload, i, hw⟩ := hf.lost (by simpa using hl)
    generalize l.session = σ at h hw
    cases h with
    | stopped s => cases hw
    | header payload h => cases hw
    | eof h => cases hw
  rw [Link.turn_heard hlost]
  obtain ⟨hout, htx⟩ | hout | ⟨hout, htx⟩ := headerRound_cases (l.hearing f).cpu
  · refine attended_left .header hout ?_
    simp only [round, onCpu, htx]
    exact h
  · exact attended_done hout
  · refine attended_wait hout ?_
    simp only [round, onCpu, htx]
    exact held_crcRequest h

/-- The bytes that reach the server. -/
theorem Link.turn_session (stage : Stage) :
    (l.turn t stage f).session = (l.session.feed t (if f.lost then
      (round (l.hearing f) stage).2.cpu.tx.dropLast else (round (l.hearing f) stage).2.cpu.tx)).1 :=
  rfl

theorem Held.turn_packet (h : Held t .packet l.session) (hf : l.Noisy f) :
    Attended t (l.turn t .packet f) := by
  have hsession := Link.turn_session (t := t) (l := l) (f := f) .packet
  obtain ⟨hout, htx⟩ | hout | ⟨hout, htx | htx | ⟨hdup, htx⟩⟩ | ⟨maximum, hmax, hout, htx⟩ :=
    packetRound_cases (l.hearing f) rfl
  · -- the driver gives up without a word
    refine attended_left .packet hout ?_
    rw [hsession, htx, List.dropLast_nil, ite_self]
    exact h
  · exact attended_done hout
  · refine attended_wait hout ?_
    rw [hsession, htx]
    split
    · obtain ⟨s, hstop⟩ | ⟨payload, i, hw, htraces⟩ := held_traces h []
      · rw [List.dropLast_cons_cons, List.dropLast_cons_cons, List.dropLast_singleton, hstop]
        exact .stopped _ _
      · rw [List.dropLast_cons_cons, List.dropLast_cons_cons, List.dropLast_singleton, htraces]
        exact h
    · obtain ⟨s, hstop⟩ | ⟨payload, i, hw, htraces⟩ := held_traces h [Serial.ack]
      · rw [hstop]
        exact .stopped _ _
      · rw [htraces]
        exact held_ack_block h hw
  · refine attended_wait hout ?_
    rw [hsession, htx]
    split
    · exact h
    · exact held_nak h
  · refine attended_wait hout ?_
    rw [hsession, htx]
    split
    · exact h
    · generalize hσ : l.session = σ at h
      cases h with
      | stopped s =>
        rw [feed_stopped]
        exact .stopped _ _
      | block payload i h => exact held_ack_block (.block payload i h) rfl
      | eot h => exact absurd hdup (hf.invented (by rw [hσ]))
  · refine attended_wait hout ?_
    rw [hsession, htx]
    split
    · rename_i hlost
      obtain ⟨payload, i, hw⟩ := hf.lost hlost
      exact (held_ack_request h hmax).2 payload i hw
    · exact (held_ack_request h hmax).1

theorem Link.Course.attended {l₀ : Link} (h : l₀.Course t l) (h₀ : Attended t l₀) : Attended t l := by
  induction h with
  | start => exact h₀
  | @turn l stage f _ hout hf ih =>
    have hheld := ih.waiting stage hout
    cases stage with
    | header => exact hheld.turn_header hf
    | packet => exact hheld.turn_packet hf

end Course

/-- The request of `_sadie_position`. -/
def positionRequest (track file : Byte) (record : Word) : List Byte :=
  [soh, charS, charD, 1, track, file, high record, low record,
    xorAll [soh, charS, charD, 1, track, file, high record, low record]]

/-- The server acknowledges a position and then announces the record that stands there. -/
def Survives (t : Tape) (σ : Session) (track file : Byte) (record maximum : Word) : Prop :=
  ∃ s, σ.feed t (positionRequest track file record) = (⟨s, .command⟩, [Serial.ack]) ∧
    s.place = some ⟨track.toNat, file.toNat, record.toNat⟩ ∧
    ∀ records payload, t.records? track.toNat file.toNat = some records →
      records[record.toNat]? = some payload →
      (Session.feed t ⟨s, .command⟩ (requestBytes maximum)).2 =
        lengthHeader (payload.take maximum.toNat)

section Abandoned

variable {t : Tape} {s : SadieServer}

theorem attended_call (h : Serving t s) (M : Machine) : Attended t (call t ⟨s, .command⟩ M) := by
  obtain hout | ⟨maximum, hmax, hout, htx⟩ :=
    readNext_cases (enterFrame { M.cpu with rx := [], tx := [] })
  · exact attended_done hout
  · refine attended_wait hout ?_
    have hbytes : (sadieRead { M.cpu with rx := [], tx := [] }).2.tx = requestBytes maximum := htx
    rw [call]
    simp only [hbytes]
    exact held_request h hmax

/-- The first byte of a position request stops a server that is held. -/
theorem Held.position_stops {stage : Stage} {σ : Session} (h : Held t stage σ) (track file : Byte)
    (record : Word) :
    σ.feed t (positionRequest track file record) = ({ σ with waiting := .stopped }, []) := by
  have hstop : ∀ σ : Session, σ.receive t soh = ({ σ with waiting := .stopped }, []) →
      σ.feed t (positionRequest track file record) = ({ σ with waiting := .stopped }, []) := by
    intro σ hσ
    rw [positionRequest, Session.feed, hσ, feed_stopped]
    rfl
  cases h with
  | stopped s => exact hstop _ rfl
  | header payload h => exact hstop _ rfl
  | eof h => exact hstop _ rfl
  | block payload i h => exact hstop _ rfl
  | eot h => exact hstop _ rfl

end Abandoned

section Silence

variable {t : Tape} {l₀ l : Link} {payload : List Byte} {i : ℕ}

/-- Nothing arrives, and nothing is lost. -/
def silence : Fate := ⟨[], false⟩

theorem silence_noisy (hw : l.session.waiting = .block payload i) : l.Noisy silence := by
  refine ⟨fun heot ↦ ?_, fun hlost ↦ by cases hlost⟩
  rw [hw] at heot
  cases heot

/-- A pause in a packet: the driver gives up, or it asks again and the server repeats. -/
theorem turn_silence (hw : l.session.waiting = .block payload i) (hrx : l.machine.cpu.rx = []) :
    (10 < (high l.machine.cpu.r3 + 1).toNat → (l.turn t .packet silence).outcome = .returned 0xFFFF) ∧
      ((high l.machine.cpu.r3 + 1).toNat ≤ 10 →
        (l.turn t .packet silence).outcome = .wait .packet ∧
        (l.turn t .packet silence).session = l.session ∧
        (l.turn t .packet silence).machine.cpu.rx = [] ∧
        high (l.turn t .packet silence).machine.cpu.r3 = high l.machine.cpu.r3 + 1) := by
  obtain ⟨m, hresponse, hstill, hrx'⟩ := (l.hearing silence).cpu.response_silence (hearing_rx hrx)
  have hround : round (l.hearing silence) .packet = onCpu (l.hearing silence) (packetBad m) := by
    rw [round, hresponse]
  have hr3 : high m.r3 = high l.machine.cpu.r3 := hstill.rh3
  set m₁ : Cpu := { m with r3 := word (high m.r3 + 1) (low m.r3) } with hm₁
  have hcount : high m₁.r3 = high l.machine.cpu.r3 + 1 := by rw [hm₁, high_word, hr3]
  have hbad : packetBad m = if 10 < (high m₁.r3).toNat then readError m₁
      else packetLoop (m₁.drain.putByte nak) := rfl
  rw [Link.turn_heard rfl, hround]
  simp only [onCpu]
  refine ⟨fun hmany ↦ ?_, fun hfew ↦ ?_⟩
  · rw [hbad, hcount, if_pos hmany]
    rfl
  · have hdrain := m₁.drain_still
    have htx : m.tx = [] := hstill.tx
    rw [hbad, hcount, if_neg (by omega)]
    refine ⟨rfl, ?_, m₁.drain_rx (by rw [hm₁]; simp [hrx']), hdrain.rh3.trans hcount⟩
    have hsent : (packetLoop (m₁.drain.putByte nak)).2.tx = [nak] :=
      congrArg (· ++ [nak]) (hdrain.tx.trans htx)
    rw [hsent, feed_nak hw]

/-- At every packet of a record the driver can give up. -/
theorem silence_abandons (hcourse : l₀.Course t l) (hout : l.outcome = .wait .packet)
    (hw : l.session.waiting = .block payload i) (hrx : l.machine.cpu.rx = []) :
    ∃ l', l₀.Course t l' ∧ l'.outcome = .returned 0xFFFF := by
  -- Induction on the responses that the driver still takes.
  induction hleft : 11 - (high l.machine.cpu.r3 + 1).toNat using Nat.strong_induction_on
    generalizing l with
  | _ left ih =>
  have hnext := Link.Course.turn hcourse hout (silence_noisy hw)
  by_cases hmany : 10 < (high l.machine.cpu.r3 + 1).toNat
  · exact ⟨_, hnext, (turn_silence hw hrx).1 hmany⟩
  · obtain ⟨hout', hsession, hrx', hr3⟩ := (turn_silence (t := t) hw hrx).2 (by omega)
    refine ih _ ?_ hnext hout' (by rw [hsession, hw]) hrx' rfl
    have hsucc : (high l.machine.cpu.r3 + 1 + 1).toNat = (high l.machine.cpu.r3 + 1).toNat + 1 := by
      have hbound : (high l.machine.cpu.r3 + 1).toNat + 1 < 2 ^ 8 := by omega
      rw [BitVec.toNat_add (high l.machine.cpu.r3 + 1)]
      exact Nat.mod_eq_of_lt hbound
    rw [hr3, hsucc]
    omega

end Silence

section Example

/-- The first packet of a record is on its way. -/
def firstPacket : Link :=
  (call twoRecordTape twoRecordSession fourBytes).turn twoRecordTape .header
    (call twoRecordTape twoRecordSession fourBytes).heard

theorem firstPacket_course :
    (call twoRecordTape twoRecordSession fourBytes).Course twoRecordTape firstPacket := by
  have hcall : (match (call twoRecordTape twoRecordSession fourBytes).outcome,
      (call twoRecordTape twoRecordSession fourBytes).session.waiting with
    | .wait .header, .header _ => true
    | _, _ => false) = true := by decide +kernel
  split at hcall
  · rename_i hout hw
    refine .turn .start hout ⟨fun heot ↦ ?_, fun hlost ↦ by cases hlost⟩
    rw [hw] at heot
    cases heot
  · cases hcall

theorem firstPacket_abandoned :
    ∃ l, (call twoRecordTape twoRecordSession fourBytes).Course twoRecordTape l ∧
      l.outcome = .returned 0xFFFF := by
  have hrx : firstPacket.machine.cpu.rx = [] := by decide +kernel
  have hstage : (match firstPacket.outcome, firstPacket.session.waiting with
    | .wait .packet, .block _ _ => true
    | _, _ => false) = true := by decide +kernel
  split at hstage
  · rename_i hout hw
    exact silence_abandons firstPacket_course hout hw hrx
  · cases hstage

theorem twoRecordTape_serving :
    Serving twoRecordTape { track := some 0, file := some 0, record := some 0 } :=
  ⟨rfl, ⟨0, 0, 0⟩, twoRecords, rfl, rfl, Nat.zero_le _⟩

end Example

end S8000.Sadie
