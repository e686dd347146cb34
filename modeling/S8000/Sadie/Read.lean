import S8000.Sadie.Stored

namespace S8000.Sadie

open Foundation Foundation.Bytes Foundation.Segments Serial

/-- The server stands `k` records behind a place in a file. -/
structure At (t : Tape) (records : List (List Byte)) (p : Place) (σ : Session) (k : ℕ) : Prop where
  stream : σ.server.stream = none
  place : σ.server.place = some { p with record := p.record + k }
  file : t.records? p.track p.file = some records
  bound : p.record + k ≤ records.length

section Server

variable {t : Tape} {records : List (List Byte)} {p : Place} {s : SadieServer} {k : ℕ}

theorem feed_request (hstream : s.stream = none) (maximum : Word) :
    Session.feed t ⟨s, .command⟩ (requestBytes maximum) =
      s.recordRead t [high maximum, low maximum, xorAll [charR, high maximum, low maximum]] := by
  have hR : charR ≠ soh := by decide
  simp [requestBytes, Session.feed, Session.receive, SadieServer.command, hR, RequestKind.size,
    SadieServer.handle, hstream]

/-- The server is behind the last record. -/
theorem feed_request_eof (h : At t records p ⟨s, .command⟩ k) {maximum : Word} (hmax : maximum ≠ 0)
    (hk : p.record + k = records.length) :
    Session.feed t ⟨s, .command⟩ (requestBytes maximum) = (⟨s, .eof⟩, [Serial.eot]) := by
  obtain ⟨htrack, hfile, hrecord⟩ := SadieServer.place_eq_some.mp h.place
  have hnat : maximum.toNat ≠ 0 := fun h0 ↦ hmax (BitVec.eq_of_toNat_eq h0)
  rw [feed_request h.stream, SadieServer.recordRead]
  simp only at htrack hfile hrecord
  simp [htrack, hfile, hrecord, hnat, h.file, hk]

/-- The server announces the next record. -/
theorem feed_request_record (h : At t records p ⟨s, .command⟩ k) {maximum : Word}
    (hmax : maximum ≠ 0) (hk : p.record + k < records.length) :
    Session.feed t ⟨s, .command⟩ (requestBytes maximum) =
      (⟨{ s with record := some (p.record + (k + 1)) },
        .header ((records.get ⟨p.record + k, hk⟩).take maximum.toNat)⟩,
        lengthHeader ((records.get ⟨p.record + k, hk⟩).take maximum.toNat)) := by
  obtain ⟨htrack, hfile, hrecord⟩ := SadieServer.place_eq_some.mp h.place
  have hnat : maximum.toNat ≠ 0 := fun h0 ↦ hmax (BitVec.eq_of_toNat_eq h0)
  have hne : p.record + k ≠ records.length := by omega
  rw [feed_request h.stream, SadieServer.recordRead]
  simp only at htrack hfile hrecord
  simp [htrack, hfile, hrecord, hnat, h.file, hne, hk]
  rfl

/-- The record has been announced. -/
theorem At.next {w w' : Waiting} (h : At t records p ⟨s, w⟩ k) (hk : p.record + k < records.length) :
    At t records p ⟨{ s with record := some (p.record + (k + 1)) }, w'⟩ (k + 1) where
  stream := h.stream
  place := by
    obtain ⟨htrack, hfile, -⟩ := SadieServer.place_eq_some.mp h.place
    exact SadieServer.place_eq_some.mpr ⟨htrack, hfile, rfl⟩
  file := h.file
  bound := hk

end Server

/-- What a call is to read from a file. -/
def goal (M₀ : Machine) (p : Place) (records : List (List Byte)) : List (List Byte) :=
  readRecords M₀.cpu.r3.toNat M₀.cpu.r5.toNat (records.drop p.record)

/-- `done` has been read, and `n` records more may be. -/
def Reads (M₀ : Machine) (p : Place) (records done : List (List Byte)) (n : ℕ) : Prop :=
  goal M₀ p records =
    done ++ readRecords n (M₀.cpu.r5.toNat - done.flatten.length)
      (records.drop (p.record + done.length))

/-- What a successful call leaves behind in one segment. -/
structure Delivered (M₀ : Machine) (p : Place) (records : List (List Byte)) (l : Link) : Prop where
  bytes : ∀ i < (goal M₀ p records).flatten.length,
    l.machine.phys (target M₀) (M₀.cpu.r6 + BitVec.ofNat 16 i) =
      (goal M₀ p records).flatten.getD i 0
  others : ∀ s x, s ≠ target M₀ ∨ (goal M₀ p records).flatten.length ≤ (x - M₀.cpu.r6).toNat →
    l.machine.phys s x = M₀.phys s x
  count : l.machine.cpu.mem.readWord M₀.cpu.r4 =
    BitVec.ofNat 16 (goal M₀ p records).flatten.length
  bound : (goal M₀ p records).flatten.length ≤ M₀.cpu.r5.toNat
  place : l.session.server.place =
    some { p with record := p.record + (goal M₀ p records).length }

/-- What a successful call leaves behind: the pieces of the records are in physical memory. -/
structure Fetched (M₀ : Machine) (p : Place) (records : List (List Byte)) (l : Link) : Prop where
  phys : l.machine.phys =
    storeBlocks (destination M₀) M₀.phys (pieces (goal M₀ p records))
  count : l.machine.cpu.mem.readWord M₀.cpu.r4 =
    BitVec.ofNat 16 (goal M₀ p records).flatten.length
  bound : (goal M₀ p records).flatten.length ≤ M₀.cpu.r5.toNat
  place : l.session.server.place =
    some { p with record := p.record + (goal M₀ p records).length }

/-- The driver has accepted `a` blocks of a record. -/
structure Receiving (t : Tape) (M₀ : Machine) (p : Place) (records : List (List Byte)) (l : Link)
    (done : List (List Byte)) (payload : List Byte) (n a : ℕ) : Prop where
  reads : Reads M₀ p records (done ++ [payload]) n
  at' : At t records p l.session (done.length + 1)
  stored : Stored M₀ (pieces done ++ (List.range a).map (blockOf payload))
    (done.flatten ++ payload.take (128 * a)) (n + 1) l.machine
  accepted : a ≤ blocks payload
  fits : done.flatten.length + payload.length ≤ M₀.cpu.r5.toNat
  recordLeft : (locals l.machine.cpu).recordLeft = BitVec.ofNat 16 (payload.length - 128 * a)
  rh2 : high l.machine.cpu.r2 = BitVec.ofNat 8 (a + 1)
  r4 : l.machine.cpu.r4 = 128
  r5 : l.machine.cpu.r5 = l.machine.cpu.r15
  rx : l.machine.cpu.rx = []

/-- The server has announced a record. -/
structure Announced (t : Tape) (M₀ : Machine) (p : Place) (records : List (List Byte)) (l : Link)
    (done : List (List Byte)) (payload : List Byte) (n : ℕ) : Prop where
  reads : Reads M₀ p records (done ++ [payload]) n
  at' : At t records p l.session (done.length + 1)
  stored : Stored M₀ (pieces done) done.flatten (n + 1) l.machine
  fits : done.flatten.length + payload.length ≤ M₀.cpu.r5.toNat
  waiting : l.session.waiting = .header payload
  sent : l.sent = lengthHeader payload
  rx : l.machine.cpu.rx = []

/-- The server has reported the end of the file. -/
structure Ended (t : Tape) (M₀ : Machine) (p : Place) (records : List (List Byte)) (l : Link)
    (n : ℕ) : Prop where
  at' : At t records p l.session (goal M₀ p records).length
  stored : Stored M₀ (pieces (goal M₀ p records)) (goal M₀ p records).flatten n l.machine
  waiting : l.session.waiting = .eof
  sent : l.sent = [Serial.eot]
  rx : l.machine.cpu.rx = []

/-- The states of a call that waits: for the packets of an announced record, of which it may have
accepted the one that is sent, for the end of the record or behind the end of the file. -/
inductive Phase (t : Tape) (M₀ : Machine) (p : Place) (records : List (List Byte)) (l : Link) :
    Stage → Prop
  | header (done : List (List Byte)) (payload : List Byte) (n : ℕ)
    (h : Announced t M₀ p records l done payload n) : Phase t M₀ p records l .header
  | eof (n : ℕ) (h : Ended t M₀ p records l n) : Phase t M₀ p records l .header
  | block (done : List (List Byte)) (payload : List Byte) (n i a : ℕ)
    (h : Receiving t M₀ p records l done payload n a)
    (waiting : l.session.waiting = .block payload i) (hi : i * 128 < payload.length)
    (ha : a = i ∨ a = i + 1) (sent : l.sent = recordPacket payload i ∨ l.sent = []) :
    Phase t M₀ p records l .packet
  | eot (done : List (List Byte)) (payload : List Byte) (n a : ℕ)
    (h : Receiving t M₀ p records l done payload n a) (waiting : l.session.waiting = .eot)
    (ha : payload.length ≤ 128 * a) (sent : l.sent = [Serial.eot]) : Phase t M₀ p records l .packet

/-- The call goes on, or it has read what it was to read. -/
inductive Progress (t : Tape) (M₀ : Machine) (p : Place) (records : List (List Byte)) (l : Link) :
    Prop
  | waiting (stage : Stage) (h : l.outcome = .wait stage) (hp : Phase t M₀ p records l stage)
  | done (h : l.outcome = .returned 0) (hd : Fetched M₀ p records l)

/-- The invariant of a call. -/
def Settled (t : Tape) (M₀ : Machine) (p : Place) (records : List (List Byte)) (l : Link) : Prop :=
  l.outcome = .returned 0xFFFF ∨ Progress t M₀ p records l

section Invariant

variable {t : Tape} {M₀ : Machine} {p : Place} {records : List (List Byte)}

/-- All that is to be read has been read. -/
theorem fetched_of_stored {M : Machine} {n : ℕ}
    (h : Stored M₀ (pieces (goal M₀ p records)) (goal M₀ p records).flatten n M) {l : Link}
    (hphys : l.machine.phys = M.phys)
    (hcount : l.machine.cpu.mem.readWord M₀.cpu.r4 =
      BitVec.ofNat 16 (goal M₀ p records).flatten.length)
    (hat : At t records p l.session (goal M₀ p records).length) : Fetched M₀ p records l where
  phys := hphys.trans h.phys
  count := hcount
  bound := h.bytes
  place := hat.place

/-- Between two records: the call is over, or the server answers the next request. -/
inductive Next (t : Tape) (M₀ : Machine) (p : Place) (records : List (List Byte)) (l : Link)
    (done : List (List Byte)) (n : ℕ) : Prop
  | done (h : l.outcome = .returned 0) (hd : Fetched M₀ p records l)
  | header (h : l.outcome = .wait .header) (payload : List Byte) (n' : ℕ) (hn : n = n' + 1)
    (ha : Announced t M₀ p records l done payload n')
  | eof (h : l.outcome = .wait .header) (he : Ended t M₀ p records l n)

theorem Next.progress {l : Link} {done : List (List Byte)} {n : ℕ}
    (h : Next t M₀ p records l done n) : Progress t M₀ p records l := by
  cases h with
  | done h hd => exact .done h hd
  | header h payload n' hn ha => exact .waiting .header h (.header done payload n' ha)
  | eof h he => exact .waiting .header h (.eof n he)

/-- The driver goes on to the next record or returns, and the server answers. -/
theorem next_readNext {done : List (List Byte)} {n : ℕ} {M : Machine} {s : SadieServer}
    (hreads : Reads M₀ p records done n) (h : Stored M₀ (pieces done) done.flatten n M)
    (hat : At t records p ⟨s, .command⟩ done.length) (hrx : M.cpu.rx = []) :
    ∃ new, (readNext M.cpu).2.tx = M.cpu.tx ++ new ∧
      Next t M₀ p records
        { session := (Session.feed t ⟨s, .command⟩ new).1
          machine := { M with cpu := (readNext M.cpu).2 }
          outcome := (readNext M.cpu).1
          sent := (Session.feed t ⟨s, .command⟩ new).2 } done n := by
  by_cases hend : done.flatten.length = M₀.cpu.r5.toNat ∨ n = 0
  · have hgoal : goal M₀ p records = done := by
      rw [hreads]
      rcases hend with hlen | rfl
      · rw [hlen, Nat.sub_self, readRecords_no_bytes, List.append_nil]
      · rw [readRecords, List.append_nil]
        simp
    obtain ⟨hret, htx, hcount⟩ := h.readOk_spec
    rw [h.readNext_done hend]
    refine ⟨[], by rw [htx, List.append_nil], .done hret ?_⟩
    rw [← hgoal] at h hcount hat
    exact fetched_of_stored h rfl hcount hat
  · have hbytes := h.bytes
    have hshort : done.flatten.length < M₀.cpu.r5.toNat := by omega
    obtain ⟨n', rfl⟩ : ∃ n', n = n' + 1 := Nat.exists_eq_succ_of_ne_zero (by omega)
    obtain ⟨m', hnext, h15, hlocals, hrx', htx⟩ := h.readNext_request hshort (by omega)
    have hrem := h.toNat_remaining
    have hmax : (locals M.cpu).remaining ≠ 0 := by
      intro h0
      rw [h0] at hrem
      have hzero : (0 : Word).toNat = 0 := rfl
      omega
    have h' : Stored M₀ (pieces done) done.flatten (n' + 1) { M with cpu := m' } := h.congr h15 hlocals rfl
    rw [hnext]
    refine ⟨_, htx, ?_⟩
    rcases Nat.eq_or_lt_of_le hat.bound with hk | hk
    · have hgoal : goal M₀ p records = done := by
        rw [hreads, hk, List.drop_length, readRecords_nil, List.append_nil]
      rw [feed_request_eof hat hmax hk]
      rw [← hgoal] at h' hat
      exact .eof rfl ⟨⟨hat.stream, hat.place, hat.file, hat.bound⟩, h', rfl, rfl, hrx'.trans hrx⟩
    · rw [feed_request_record hat hmax hk]
      have hdrop : records.drop (p.record + done.length) =
          records.get ⟨p.record + done.length, hk⟩ :: records.drop (p.record + done.length + 1) :=
        List.drop_eq_getElem_cons hk
      have hlen : ((records.get ⟨p.record + done.length, hk⟩).take
          (locals M.cpu).remaining.toNat).length ≤ M₀.cpu.r5.toNat - done.flatten.length := by
        rw [List.length_take, hrem]
        exact Nat.min_le_left _ _
      refine .header rfl _ n' rfl ⟨?_, hat.next hk, h', by omega, rfl, rfl, hrx'.trans hrx⟩
      have hflat : ∀ payload : List Byte,
          (done ++ [payload]).flatten.length = done.flatten.length + payload.length := by simp
      rw [Reads, hreads, hdrop, readRecords_cons n' (by omega), ← hrem, hflat, List.length_append,
        List.append_assoc, Nat.sub_add_eq, ← hrem]
      rfl

theorem feed_nak {payload : List Byte} {i : ℕ} {σ : Session}
    (hw : σ.waiting = .block payload i) : σ.feed t [nak] = (σ, recordPacket payload i) := by
  have hne : ¬ (nak = traceBeforeStore ∨ nak = traceAfterStore) ∧ nak ≠ Serial.ack := by decide
  simp only [Session.feed, Session.receive, hw, if_neg hne.1, if_neg hne.2, if_true,
    List.append_nil]

theorem feed_ack {payload : List Byte} {i : ℕ} {σ : Session}
    (hw : σ.waiting = .block payload i) : σ.feed t [Serial.ack] = σ.server.send payload (i + 1) := by
  have hne : ¬ (Serial.ack = traceBeforeStore ∨ Serial.ack = traceAfterStore) := by decide
  simp only [Session.feed, Session.receive, hw, if_neg hne, if_true, List.append_nil, Prod.mk.eta]

/-- The trace bytes are skipped. -/
theorem feed_traces {payload : List Byte} {i : ℕ} {σ : Session}
    (hw : σ.waiting = .block payload i) (bytes : List Byte) :
    σ.feed t (traceBeforeStore :: traceAfterStore :: bytes) = σ.feed t bytes := by
  have htrace : ∀ b, b = traceBeforeStore ∨ b = traceAfterStore → σ.receive t b = (σ, []) := by
    intro b hb
    rw [Session.receive]
    simp only [hw, if_pos hb]
  simp only [Session.feed, htrace _ (.inl rfl), htrace _ (.inr rfl), List.nil_append, Prod.mk.eta]

theorem At.of_server {σ σ' : Session} {k : ℕ} (h : At t records p σ k)
    (hs : σ'.server = σ.server) : At t records p σ' k :=
  ⟨by rw [hs, h.stream], by rw [hs, h.place], h.file, h.bound⟩

theorem send_server (s : SadieServer) (payload : List Byte) (i : ℕ) :
    (s.send payload i).1.server = s := by
  rw [SadieServer.send]
  split <;> rfl

/-- The server has sent the next block or the end of the record. -/
theorem progress_send {l : Link} {done : List (List Byte)} {payload : List Byte} {n a : ℕ}
    {s : SadieServer} (h : Receiving t M₀ p records l done payload n a)
    (hsession : l.session = (s.send payload a).1) (hsent : l.sent = (s.send payload a).2)
    (hout : l.outcome = .wait .packet) : Progress t M₀ p records l := by
  refine .waiting .packet hout ?_
  rw [SadieServer.send, xmodemBlockSize] at hsession hsent
  by_cases ha : a * 128 < payload.length
  · rw [if_pos ha] at hsession hsent
    exact .block done payload n a a h (by rw [hsession]) ha (.inl rfl) (.inl hsent)
  · rw [if_neg ha] at hsession hsent
    exact .eot done payload n a h (by rw [hsession]) (by omega) hsent

section Turns

variable {l : Link} {f : Fate} {stage : Stage}

theorem hearing_rx (hrx : l.machine.cpu.rx = []) : (l.hearing f).cpu.rx = f.events := by
  rw [Link.hearing]
  simp only [hrx, List.nil_append]

/-- Nothing but a data packet is ever damaged, or its acknowledgement lost. -/
theorem Link.Fair.sure (hfair : l.Fair stage f) (hdata : ¬ l.Data) :
    f.events = l.sent.map some ∧ f.lost = false := by
  refine ⟨hfair.events.resolve_right fun h ↦ hdata h.1, ?_⟩
  by_contra hl
  exact hdata (hfair.lost (by simpa using hl)).1

theorem Link.turn_heard (hlost : f.lost = false) :
    l.turn t stage f =
      { session := (l.session.feed t (round (l.hearing f) stage).2.cpu.tx).1
        machine := (round (l.hearing f) stage).2
        outcome := (round (l.hearing f) stage).1
        sent := (l.session.feed t (round (l.hearing f) stage).2.cpu.tx).2 } := by
  rw [Link.turn, hlost]
  rfl

theorem Link.turn_unheard (hlost : f.lost = true) :
    l.turn t stage f =
      { session := (l.session.feed t (round (l.hearing f) stage).2.cpu.tx.dropLast).1
        machine := (round (l.hearing f) stage).2
        outcome := (round (l.hearing f) stage).1
        sent := (l.session.feed t (round (l.hearing f) stage).2.cpu.tx.dropLast).2 } := by
  rw [Link.turn, hlost]
  rfl

/-- A record is announced: the driver asks for its packets. -/
theorem Announced.turn {done : List (List Byte)} {payload : List Byte} {n : ℕ}
    (h : Announced t M₀ p records l done payload n) (hfair : l.Fair .header f) :
    (l.turn t .header f).outcome = .wait .packet ∧
      Receiving t M₀ p records (l.turn t .header f) done payload n 0 ∧
      (l.turn t .header f).session = (l.session.server.send payload 0).1 ∧
      (l.turn t .header f).sent = (l.session.server.send payload 0).2 := by
  have hr5 := M₀.cpu.r5.isLt
  have hfits := h.fits
  have hstx : stx ≠ soh := by decide
  obtain ⟨hev, hlost⟩ := hfair.sure (by rw [Link.Data, h.sent]; simpa [lengthHeader] using hstx)
  have hrx' : (l.hearing f).cpu.rx = [some stx, some (high (BitVec.ofNat 16 payload.length)),
      some (low (BitVec.ofNat 16 payload.length))] := by
    rw [hearing_rx h.rx, hev, h.sent]
    rfl
  have hstored : Stored M₀ (pieces done) done.flatten (n + 1) (l.hearing f) := h.stored.congr rfl rfl rfl
  have hroom : (word (high (BitVec.ofNat 16 payload.length))
      (low (BitVec.ofNat 16 payload.length))).toNat ≤ (locals (l.hearing f).cpu).remaining.toNat := by
    rw [word_high_low, hstored.toNat_remaining, BitVec.toNat_ofNat]
    omega
  obtain ⟨m', hround, h15, hlocals, h2, h4, h5, hrx₁, htx⟩ := headerRound_record hrx' hroom
  have hround' : round (l.hearing f) .header = (.wait .packet, { l.hearing f with cpu := m' }) := by
    rw [round, hround, onCpu]
  have htx' : m'.tx = [crcRequest] := htx
  have hfeed : l.session.feed t [crcRequest] = l.session.server.send payload 0 := by
    simp only [Session.feed, Session.receive, h.waiting, if_true, List.append_nil, Prod.mk.eta]
  rw [Link.turn_heard hlost, hround']
  simp only [htx', hfeed]
  refine ⟨trivial, ⟨h.reads, h.at'.of_server (send_server _ _ _), ?_, Nat.zero_le _, h.fits, ?_, h2, h4,
    h5, hrx₁⟩,
    trivial, trivial⟩
  · rw [Nat.mul_zero, List.take_zero, List.append_nil, List.range_zero, List.map_nil,
      List.append_nil]
    exact hstored.congr h15 hlocals rfl
  · rw [word_high_low] at hlocals
    exact congrArg Locals.recordLeft hlocals

/-- The file ends. -/
theorem Ended.turn {n : ℕ} (h : Ended t M₀ p records l n) (hfair : l.Fair .header f) :
    (l.turn t .header f).outcome = .returned 0 ∧ Fetched M₀ p records (l.turn t .header f) := by
  have heot : Serial.eot ≠ soh := by decide
  obtain ⟨hev, hlost⟩ := hfair.sure (by rw [Link.Data, h.sent]; simpa using heot)
  have hrx' : (l.hearing f).cpu.rx = [some Serial.eot] := by
    rw [hearing_rx h.rx, hev, h.sent]
    rfl
  obtain ⟨m', hround, h15, hlocals, htx⟩ := headerRound_eof hrx'
  have hstored : Stored M₀ (pieces (goal M₀ p records)) (goal M₀ p records).flatten n { l.hearing f with cpu := m' } :=
    h.stored.congr h15 hlocals rfl
  obtain ⟨hret, htx', hcount⟩ := hstored.readOk_spec
  have htx₁ : (readOk m').2.tx = [Serial.ack] := htx'.trans htx
  have hround' : round (l.hearing f) .header =
      (.returned 0, { l.hearing f with cpu := (readOk m').2 }) := by
    rw [round, hround, onCpu]
    exact congrArg (Prod.mk · _) hret
  have hserver : (l.session.feed t [Serial.ack]).1.server = l.session.server := by
    simp only [Session.feed, Session.receive, h.waiting, if_true]
  rw [Link.turn_heard hlost, hround']
  simp only [htx₁]
  exact ⟨trivial, fetched_of_stored hstored rfl hcount (h.at'.of_server hserver)⟩

section Blocks

variable {done : List (List Byte)} {payload : List Byte} {n i a : ℕ}

theorem length_ljust (bytes : List Byte) (h : bytes.length ≤ 128) :
    (ljust bytes 128).length = 128 := by
  rw [ljust, List.length_append, List.length_replicate]
  omega

theorem length_blockOf (payload : List Byte) (i : ℕ) :
    (blockOf payload i).length = min (payload.length - 128 * i) 128 := by
  rw [blockOf, xmodemBlockSize, List.length_take, List.length_drop, Nat.mul_comm, Nat.min_comm]

theorem lt_blocks_iff {payload : List Byte} (i : ℕ) :
    i < blocks payload ↔ i * xmodemBlockSize < payload.length := by
  simp only [blocks, xmodemBlockSize]
  omega

theorem take_blockOf (payload : List Byte) (i : ℕ) :
    payload.take (128 * (i + 1)) = payload.take (128 * i) ++ blockOf payload i := by
  rw [blockOf, xmodemBlockSize, Nat.mul_succ, Nat.mul_comm i 128, List.take_add]

theorem flatten_blocks (payload : List Byte) (a : ℕ) :
    ((List.range a).map (blockOf payload)).flatten = payload.take (128 * a) := by
  induction a with
  | zero => rfl
  | succ a ih =>
    rw [List.range_succ, List.map_append, List.flatten_append, ih, take_blockOf]
    simp

theorem flatten_pieces (records : List (List Byte)) : (pieces records).flatten = records.flatten := by
  induction records with
  | nil => rfl
  | cons payload records ih =>
    have hall : payload.length ≤ 128 * blocks payload := by
      simp only [blocks, xmodemBlockSize]
      omega
    rw [pieces, List.flatMap_cons, List.flatten_append, flatten_blocks,
      List.take_of_length_le hall, List.flatten_cons, ← ih, pieces]

namespace Receiving

variable (h : Receiving t M₀ p records l done payload n a)

include h

/-- Nothing that matters has changed. -/
theorem kept {l' : Link} {M' : Machine} (hM : l'.machine = M')
    (hserver : l'.session.server = l.session.server) (h15 : M'.cpu.r15 = (l.hearing f).cpu.r15)
    (hlocals : locals M'.cpu = locals (l.hearing f).cpu) (hphys : M'.phys = (l.hearing f).phys)
    (h2 : high M'.cpu.r2 = high (l.hearing f).cpu.r2) (h4 : M'.cpu.r4 = 128)
    (h5 : M'.cpu.r5 = M'.cpu.r15) (hrx : M'.cpu.rx = []) :
    Receiving t M₀ p records l' done payload n a := by
  subst hM
  exact ⟨h.reads, h.at'.of_server hserver, h.stored.congr h15 hlocals hphys, h.accepted, h.fits,
    (congrArg Locals.recordLeft hlocals).trans h.recordLeft, h2.trans h.rh2, h4, h5, hrx⟩

/-- Storing into the packet buffer leaves the counters alone. -/
theorem locals_stored {m' : Cpu} {data : List Byte} (h15 : m'.r15 = (l.hearing f).cpu.r15)
    (hmem : m'.mem = (l.hearing f).cpu.mem.storeList (l.hearing f).cpu.r5 data)
    (hdata : data.length ≤ 128) : locals m' = locals (l.hearing f).cpu := by
  have h5 : (l.hearing f).cpu.r5 = (l.hearing f).cpu.r15 := h.r5
  apply locals_congr h15
  intro x hx
  rw [hmem, h5, Memory.storeList_outside _ (hdata.trans hx)]

/-- The block that is sent is the next one. -/
theorem round_new (ha : a * 128 < payload.length) (hev : f.events = (recordPacket payload a).map some) :
    ∃ M', round (l.hearing f) .packet = (.wait .packet, M') ∧
      M'.cpu.tx = [traceBeforeStore, traceAfterStore, Serial.ack] ∧
      ∀ {l' : Link}, l'.machine = M' → l'.session.server = l.session.server →
        Receiving t M₀ p records l' done payload n (a + 1) := by
  have hr5 := M₀.cpu.r5.isLt
  have hfits := h.fits
  have hblock := length_blockOf payload a
  have hljust : (ljust (blockOf payload a) 128).length = 128 := length_ljust _ (by omega)
  have h5 : (l.hearing f).cpu.r5 = (l.hearing f).cpu.r15 := h.r5
  have hrx : (l.hearing f).cpu.rx = (xmodemPacket (BitVec.ofNat 8 (a + 1))
      (ljust (blockOf payload a) 128)).map some := (hearing_rx h.rx).trans hev
  obtain ⟨m', hvalid, hframe, hrx', hmem, -⟩ :=
    Cpu.response_new hljust hrx h.rh2.symm (by rw [show (l.hearing f).cpu.r4 = 128 from h.r4]; decide)
  have hlocals := h.locals_stored hframe.r15 hmem hljust.le
  have hstored : Stored M₀ (pieces done ++ (List.range a).map (blockOf payload))
      (done.flatten ++ payload.take (128 * a)) (n + 1)
      { l.hearing f with cpu := m' } := h.stored.congr hframe.r15 hlocals rfl
  have hbuf : readBytes m'.mem m'.r15 (blockOf payload a).length = blockOf payload a := by
    rw [hmem, h5, ← hframe.r15, readBytes_storeList _ _ _ (by omega) (by omega), ljust]
    exact List.take_left' rfl
  have htake : (payload.take (128 * a)).length = 128 * a := by
    rw [List.length_take]
    omega
  have hleft : (locals m').recordLeft = BitVec.ofNat 16 (payload.length - 128 * a) :=
    (congrArg Locals.recordLeft hlocals).trans h.recordLeft
  obtain ⟨M', hpacket, hstored', hleft', h4', h5', h2', hrx₁, htx'⟩ :=
    hstored.packetValid_spec hleft (by omega) hblock (by omega)
      (by rw [List.length_append, htake]; omega) hbuf
  refine ⟨M', ?_, ?_, ?_⟩
  · rw [round, hvalid]
    exact hpacket
  · exact htx'.trans (congrArg (· ++ [traceBeforeStore, traceAfterStore, Serial.ack]) hframe.tx)
  · intro l' hM hserver
    subst hM
    refine ⟨h.reads, h.at'.of_server hserver, ?_, (lt_blocks_iff a).mpr ha, h.fits, ?_, ?_, h4', h5',
      hrx₁.trans hrx'⟩
    · rw [take_blockOf, ← List.append_assoc, List.range_succ, List.map_append, ← List.append_assoc]
      exact hstored'
    · have hsub : payload.length - 128 * a - (blockOf payload a).length =
          payload.length - 128 * (a + 1) := by omega
      rw [hleft', hsub]
    · have hrh2 : high m'.r2 = BitVec.ofNat 8 (a + 1) := hframe.rh2.trans h.rh2
      refine h2'.trans ?_
      rw [hrh2]
      exact (BitVec.ofNat_add (a + 1) 1).symm

/-- The block that is sent has been accepted before. -/
theorem round_old (ha : a = i + 1)
    (hev : f.events = (recordPacket payload i).map some) :
    ∃ M', round (l.hearing f) .packet = (.wait .packet, M') ∧ M'.cpu.tx = [Serial.ack] ∧
      ∀ {l' : Link}, l'.machine = M' → l'.session.server = l.session.server →
        Receiving t M₀ p records l' done payload n a := by
  have hblock := length_blockOf payload i
  have hljust : (ljust (blockOf payload i) 128).length = 128 := length_ljust _ (by omega)
  have hrx : (l.hearing f).cpu.rx = (xmodemPacket (BitVec.ofNat 8 (i + 1))
      (ljust (blockOf payload i) 128)).map some := (hearing_rx h.rx).trans hev
  have hn : BitVec.ofNat 8 (i + 1) + 1 = high (l.hearing f).cpu.r2 := by
    rw [show high (l.hearing f).cpu.r2 = _ from h.rh2, ha]
    exact (BitVec.ofNat_add (i + 1) 1).symm
  obtain ⟨m₁, hstill, hrest, hdup⟩ := Cpu.response_old hljust hrx hn
  have hlocals : locals m₁ = locals (l.hearing f).cpu := locals_of_mem_eq hstill.r15 hstill.mem
  refine ⟨_, by rw [round, hdup], congrArg (· ++ [Serial.ack]) hstill.tx, ?_⟩
  intro l' hM hserver
  have h5 : m₁.r5 = m₁.r15 := by
    rw [hstill.r5, hstill.r15]
    exact h.r5
  exact h.kept hM hserver hstill.r15 hlocals rfl ((high_word _ _).trans hstill.rh2)
    (hstill.r4.trans h.r4) h5 hrest

/-- A bad response: the buffer may have changed, and nothing else. -/
theorem round_bad {m' : Cpu} (hbad : (l.hearing f).cpu.response = (.bad, m'))
    (hframe : Cpu.Frame (l.hearing f).cpu m') (hnone : none ∉ m'.rx) {data : List Byte}
    (hmem : m'.mem = (l.hearing f).cpu.mem.storeList (l.hearing f).cpu.r5 data)
    (hdata : data.length ≤ 128) :
    (round (l.hearing f) .packet).1 = .returned 0xFFFF ∨
      ∃ M', round (l.hearing f) .packet = (.wait .packet, M') ∧ M'.cpu.tx = [nak] ∧
        ∀ {l' : Link}, l'.machine = M' → l'.session.server = l.session.server →
          Receiving t M₀ p records l' done payload n a := by
  have hlocals := h.locals_stored hframe.r15 hmem hdata
  have hround : round (l.hearing f) .packet = onCpu (l.hearing f) (packetBad m') := by
    rw [round, hbad]
  rw [hround]
  rcases packetBad_spec hnone with hret | ⟨hret, h15, hlocals', h2, h4, h5, hrx, htx⟩
  · exact .inl hret
  · refine .inr ⟨{ l.hearing f with cpu := (packetBad m').2 }, by rw [onCpu, hret], ?_, ?_⟩
    · exact htx.trans (congrArg (· ++ [nak]) hframe.tx)
    · intro l' hM hserver
      exact h.kept hM hserver (h15.trans hframe.r15) (hlocals'.trans hlocals) rfl
        (h2.trans hframe.rh2) h4 (h5.trans h15.symm) hrx

/-- The block arrives: it is acknowledged, for the first time or once more. -/
theorem round_intact (hw : l.session.waiting = .block payload i) (hi : i * 128 < payload.length)
    (ha : a = i ∨ a = i + 1) (hev : f.events = (recordPacket payload i).map some) :
    ∃ M' answer, round (l.hearing f) .packet = (.wait .packet, M') ∧
      M'.cpu.tx = answer ++ [Serial.ack] ∧ l.session.feed t answer = (l.session, []) ∧
      l.session.feed t (answer ++ [Serial.ack]) = l.session.server.send payload (i + 1) ∧
      ∀ {l' : Link}, l'.machine = M' → l'.session.server = l.session.server →
        Receiving t M₀ p records l' done payload n (i + 1) := by
  rcases ha with rfl | ha
  · obtain ⟨M', hround, htx, hnext⟩ := h.round_new hi hev
    refine ⟨M', [traceBeforeStore, traceAfterStore], hround, htx, feed_traces hw [], ?_, hnext⟩
    exact (feed_traces hw [Serial.ack]).trans (feed_ack hw)
  · obtain ⟨M', hround, htx, hsame⟩ := h.round_old ha hev
    subst ha
    exact ⟨M', [], hround, htx, rfl, feed_ack hw, hsame⟩

/-- The acknowledgement arrives too. -/
theorem turn_heard (hw : l.session.waiting = .block payload i) (hi : i * 128 < payload.length)
    (ha : a = i ∨ a = i + 1) (hev : f.events = (recordPacket payload i).map some)
    (hlost : f.lost = false) :
    (l.turn t .packet f).outcome = .wait .packet ∧
      Receiving t M₀ p records (l.turn t .packet f) done payload n (i + 1) ∧
      (l.turn t .packet f).session = (l.session.server.send payload (i + 1)).1 ∧
      (l.turn t .packet f).sent = (l.session.server.send payload (i + 1)).2 := by
  obtain ⟨M', answer, hround, htx, -, hfeed, hreceiving⟩ := h.round_intact hw hi ha hev
  rw [Link.turn_heard hlost, hround]
  simp only [htx, hfeed]
  exact ⟨trivial, hreceiving rfl (send_server _ _ _), trivial, trivial⟩

theorem turn_unheard (hw : l.session.waiting = .block payload i) (hi : i * 128 < payload.length)
    (ha : a = i ∨ a = i + 1) (hev : f.events = (recordPacket payload i).map some)
    (hlost : f.lost = true) : Progress t M₀ p records (l.turn t .packet f) := by
  obtain ⟨M', answer, hround, htx, hquiet, -, hreceiving⟩ := h.round_intact hw hi ha hev
  rw [Link.turn_unheard hlost, hround]
  simp only [htx, List.dropLast_concat, hquiet]
  exact .waiting .packet rfl (.block done payload n i (i + 1) (hreceiving rfl rfl) hw hi (.inr rfl)
    (.inr rfl))

/-- The response is bad. -/
theorem turn_bad (hw : l.session.waiting = .block payload i) (hi : i * 128 < payload.length)
    (ha : a = i ∨ a = i + 1) (hfair : l.Fair .packet f) {m' : Cpu}
    (hbad : (l.hearing f).cpu.response = (.bad, m')) (hframe : Cpu.Frame (l.hearing f).cpu m')
    (hnone : none ∉ m'.rx) {data : List Byte}
    (hmem : m'.mem = (l.hearing f).cpu.mem.storeList (l.hearing f).cpu.r5 data)
    (hdata : data.length ≤ 128) : Settled t M₀ p records (l.turn t .packet f) := by
  rcases h.round_bad hbad hframe hnone hmem hdata with hret | ⟨M', hround, htx, hreceiving⟩
  · exact .inl hret
  · have hlost : f.lost = false := by
      by_contra hl
      have hack := (hfair.lost (by simpa using hl)).2
      rw [hround, htx] at hack
      exact absurd hack (by decide)
    rw [Link.turn_heard hlost, hround]
    simp only [htx, feed_nak hw]
    exact .inr (.waiting .packet rfl (.block done payload n i a (hreceiving rfl rfl) hw hi ha (.inl rfl)))

/-- A transmission of a block. -/
theorem turn_block (hw : l.session.waiting = .block payload i) (hi : i * 128 < payload.length)
    (ha : a = i ∨ a = i + 1) (hsent : l.sent = recordPacket payload i ∨ l.sent = [])
    (hfair : l.Fair .packet f) : Settled t M₀ p records (l.turn t .packet f) := by
  have hrx : (l.hearing f).cpu.rx = f.events := hearing_rx h.rx
  rcases hsent with hsent | hsent
  · by_cases hintact : f.events = l.sent.map some
    · rw [hsent] at hintact
      cases hlost : f.lost with
      | true => exact .inr (h.turn_unheard hw hi ha hintact hlost)
      | false =>
        obtain ⟨hout, hnext, hsession, hsent'⟩ := h.turn_heard (t := t) hw hi ha hintact hlost
        exact .inr (progress_send hnext hsession hsent' hout)
    · have hblock := length_blockOf payload i
      have hljust : (ljust (blockOf payload i) 128).length = 128 := length_ljust _ (by omega)
      have hdamaged : Damaged (xmodemPacket (BitVec.ofNat 8 (i + 1))
          (ljust (blockOf payload i) 128)) (l.hearing f).cpu.rx := by
        rw [hrx]
        have hd := (hfair.events.resolve_left hintact).2
        rwa [hsent] at hd
      have hexpected : (BitVec.ofNat 8 (i + 1) = high (l.hearing f).cpu.r2 ∧
          128 ≤ (l.hearing f).cpu.r4.toNat) ∨
          BitVec.ofNat 8 (i + 1) + 1 = high (l.hearing f).cpu.r2 := by
        have hrh2 : high (l.hearing f).cpu.r2 = BitVec.ofNat 8 (a + 1) := h.rh2
        have h4 : (l.hearing f).cpu.r4 = 128 := h.r4
        rcases ha with rfl | rfl
        · exact .inl ⟨hrh2.symm, by rw [h4]; decide⟩
        · right
          rw [hrh2]
          exact (BitVec.ofNat_add (i + 1) 1).symm
      obtain ⟨m', data, hbad, hframe, hnone, hmem, -, hdata, -⟩ :=
        Cpu.response_damaged hljust hdamaged hexpected
      exact h.turn_bad hw hi ha hfair hbad hframe hnone hmem hdata
  · obtain ⟨hev, -⟩ := hfair.sure (by rw [Link.Data, hsent]; simp)
    rw [hsent] at hev
    obtain ⟨m', hbad, hstill, hrest⟩ := Cpu.response_silence (hrx.trans hev)
    have hmem : m'.mem = (l.hearing f).cpu.mem.storeList (l.hearing f).cpu.r5 [] := hstill.mem
    exact h.turn_bad hw hi ha hfair hbad hstill.toFrame (by simp [hrest]) hmem (by simp)

/-- A record ends. -/
theorem turn_eot (hw : l.session.waiting = .eot) (ha : payload.length ≤ 128 * a)
    (hsent : l.sent = [Serial.eot]) (hfair : l.Fair .packet f) :
    Next t M₀ p records (l.turn t .packet f) (done ++ [payload]) n := by
  have hne : Serial.eot ≠ soh := by decide
  obtain ⟨hev, hlost⟩ := hfair.sure (by rw [Link.Data, hsent]; simpa using hne)
  have hrx : (l.hearing f).cpu.rx = [some Serial.eot] := by
    rw [hearing_rx h.rx, hev, hsent]
    rfl
  obtain ⟨m', heot, hstill, hrest⟩ := Cpu.response_eot hrx
  have hlocals : locals m' = locals (l.hearing f).cpu := locals_of_mem_eq hstill.r15 hstill.mem
  have hzero : payload.length - 128 * a = 0 := by omega
  have hleft : (locals m').recordLeft = 0 := by
    rw [hlocals]
    refine h.recordLeft.trans ?_
    rw [hzero]
    rfl
  obtain ⟨m'', hnext, h15, hrx'', htx, hlocals''⟩ := recordEot_spec hleft
  rw [hlocals] at hlocals''
  have hdata : done.flatten ++ payload.take (128 * a) = (done ++ [payload]).flatten := by
    rw [List.take_of_length_le ha]
    simp
  have hlast : a = blocks payload := by
    refine Nat.le_antisymm h.accepted (Nat.le_of_not_lt fun hlt ↦ ?_)
    have := (lt_blocks_iff a).mp hlt
    rw [xmodemBlockSize] at this
    omega
  have hstored : Stored M₀ (pieces (done ++ [payload])) (done ++ [payload]).flatten n
      { l.hearing f with cpu := m'' } := by
    have hbefore := h.stored
    rw [hdata, hlast, ← pieces_concat] at hbefore
    exact hbefore.next (h15.trans hstill.r15) hlocals'' rfl
  have hat : At t records p ⟨l.session.server, .command⟩ (done ++ [payload]).length := by
    rw [List.length_append]
    exact h.at'.of_server rfl
  obtain ⟨new, htx', hnext'⟩ := next_readNext h.reads hstored hat (hrx''.trans hrest)
  have hround : round (l.hearing f) .packet =
      onCpu (l.hearing f) (readNext m'') := by
    rw [round, heot]
    exact congrArg (onCpu (l.hearing f)) hnext
  have htx'' : (readNext m'').2.tx = Serial.ack :: new := by
    refine htx'.trans ?_
    rw [htx, hstill.tx]
    rfl
  have hfeed : l.session.feed t (Serial.ack :: new) =
      Session.feed t ⟨l.session.server, .command⟩ new := by
    rw [Session.feed]
    simp only [Session.receive, hw, if_true, List.nil_append, Prod.mk.eta]
  rw [Link.turn_heard hlost, hround, onCpu]
  simp only [htx'', hfeed]
  exact hnext'

end Receiving

end Blocks

theorem Phase.turn (hphase : Phase t M₀ p records l stage) (hfair : l.Fair stage f) :
    Settled t M₀ p records (l.turn t stage f) := by
  cases hphase with
  | header done payload n h =>
    obtain ⟨hout, hnext, hsession, hsent⟩ := h.turn hfair
    exact .inr (progress_send hnext hsession hsent hout)
  | eof n h =>
    obtain ⟨hret, hd⟩ := h.turn hfair
    exact .inr (.done hret hd)
  | block done payload n i a h waiting hi ha sent =>
    exact h.turn_block waiting hi ha sent hfair
  | eot done payload n a h waiting ha sent => exact .inr (h.turn_eot waiting ha sent hfair).progress

end Turns

end Invariant

end S8000.Sadie
