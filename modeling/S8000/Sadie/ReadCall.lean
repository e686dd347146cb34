import S8000.Sadie.Read

namespace S8000.Sadie

open Foundation Foundation.Bytes Foundation.Segments Serial

variable {t : Tape} {M₀ : Machine} {p : Place} {records : List (List Byte)}

/-- A call to a server that stands at a record of a file, with the pointer to the count outside of
the stack frame. -/
structure Calling (t : Tape) (records : List (List Byte)) (p : Place) (σ : Session) (M₀ : Machine) :
    Prop where
  waiting : σ.waiting = .command
  stream : σ.server.stream = none
  place : σ.server.place = some p
  file : t.records? p.track p.file = some records
  record : p.record ≤ records.length
  pointer : 0x9E ≤ (M₀.cpu.r4 - (M₀.cpu.r15 - readFrame)).toNat

/-- The destination lies inside one segment. -/
structure Ready (t : Tape) (records : List (List Byte)) (p : Place) (σ : Session) (M₀ : Machine) :
    Prop extends Calling t records p σ M₀ where
  range : M₀.cpu.r6.toNat + M₀.cpu.r5.toNat ≤ 65536

theorem stored_enterFrame (M₀ : Machine)
    (hptr : 0x9E ≤ (M₀.cpu.r4 - (M₀.cpu.r15 - readFrame)).toNat) :
    Stored M₀ [] [] M₀.cpu.r3.toNat
      { M₀ with cpu := enterFrame { M₀.cpu with rx := [], tx := [] } } := by
  obtain ⟨left, hlocals⟩ := locals_enterFrame { M₀.cpu with rx := [], tx := [] } hptr
  have hr3 : M₀.cpu.r3 = BitVec.ofNat 16 M₀.cpu.r3.toNat := by
    rw [BitVec.ofNat_toNat, BitVec.setWidth_eq]
  have hcarry : M₀.cpu.r7 = M₀.cpu.r7 + BitVec.ofNat 16 ((M₀.cpu.r6.toNat + 0) / 65536) := by
    rw [Nat.add_zero, Nat.div_eq_of_lt M₀.cpu.r6.isLt]
    exact (BitVec.add_zero _).symm
  refine ⟨rfl, rfl, (congrArg Locals.destSeg hlocals).trans hcarry, ?_, ?_,
    congrArg Locals.countPtr hlocals, (congrArg Locals.recordsLeft hlocals).trans hr3,
    congrArg Locals.total hlocals, rfl, Nat.zero_le _, M₀.cpu.r3.isLt⟩
  · exact (congrArg Locals.destOff hlocals).trans (BitVec.add_zero _).symm
  · exact (congrArg Locals.remaining hlocals).trans (BitVec.sub_zero _).symm

theorem call_next {σ : Session} (h : Calling t records p σ M₀) :
    Next t M₀ p records (call t σ M₀) [] M₀.cpu.r3.toNat := by
  obtain ⟨s, w⟩ := σ
  obtain rfl : w = .command := h.waiting
  have hstored := stored_enterFrame M₀ h.pointer
  have hat : At t records p ⟨s, .command⟩ ([] : List (List Byte)).length :=
    ⟨h.stream, h.place, h.file, h.record⟩
  have hreads : Reads M₀ p records [] M₀.cpu.r3.toNat := rfl
  obtain ⟨new, htx, hnext⟩ := next_readNext hreads hstored hat rfl
  have htx' : (sadieRead { M₀.cpu with rx := [], tx := [] }).2.tx = new := htx
  rw [call]
  simp only [htx']
  exact hnext

theorem settled_of_run {σ : Session} (h : Calling t records p σ M₀) {l : Link}
    (hrun : (call t σ M₀).Run t l) : Settled t M₀ p records l := by
  induction hrun with
  | start => exact .inr (call_next h).progress
  | turn hrun hwait hfair ih =>
    rcases ih with hret | hprogress
    · rw [hwait] at hret
      cases hret
    · cases hprogress with
      | waiting stage hwait' hp =>
        rw [hwait] at hwait'
        cases hwait'
        exact hp.turn hfair
      | done hret _ =>
        rw [hwait] at hret
        cases hret

theorem fetched_of_run {σ : Session} (h : Calling t records p σ M₀) {l : Link}
    (hrun : (call t σ M₀).Run t l) (hret : l.outcome = .returned 0) : Fetched M₀ p records l := by
  rcases settled_of_run h hrun with hret' | hprogress
  · rw [hret] at hret'
    exact absurd (Outcome.returned.inj hret') (by decide)
  · cases hprogress with
    | waiting stage hwait _ =>
      rw [hret] at hwait
      cases hwait
    | done _ hd => exact hd

/-- Inside one segment the pieces are stored one behind the other. -/
theorem Fetched.delivered {l : Link} (h : Fetched M₀ p records l)
    (hrange : M₀.cpu.r6.toNat + M₀.cpu.r5.toNat ≤ 65536) : Delivered M₀ p records l := by
  have hbound := h.bound
  have hr6 := M₀.cpu.r6.isLt
  have hmod : destination M₀ % 65536 = M₀.cpu.r6.toNat := by
    rw [destination]
    omega
  have hsegment : ∀ k < (goal M₀ p records).flatten.length,
      segmentOf 7 (destination M₀ + k) = target M₀ := by
    intro k hk
    have hzero : (M₀.cpu.r6.toNat + k) / 65536 = 0 := Nat.div_eq_of_lt (by omega)
    rw [← segmentOf_destination, hzero, target]
    exact congrArg (fun r ↦ (low r).setWidth 7) (BitVec.add_zero _)
  have hlen : (pieces (goal M₀ p records)).flatten.length ≤ 65536 := by
    rw [flatten_pieces]
    omega
  have hinside : ¬ Straddles (destination M₀) (pieces (goal M₀ p records)) := by
    refine not_straddles ?_
    rw [hmod, flatten_pieces]
    omega
  have hlinear := linear_storeBlocks M₀.phys hlen hinside
  rw [flatten_pieces, ← h.phys] at hlinear
  refine ⟨?_, ?_, h.count, h.bound, h.place⟩
  · intro i hi
    rw [← hsegment i hi, ← offsetOf_destination]
    exact hlinear.stored i hi
  · intro s x hx
    refine hlinear.others s x fun k hk hs hoffset ↦ ?_
    rcases hx with hx | hx
    · exact hx (hs.trans (hsegment k hk))
    · rw [hoffset, offsetOf_destination, BitVec.add_comm, BitVec.add_sub_cancel, BitVec.toNat_ofNat] at hx
      omega

/-- Every call that returns zero has read what it was to read. -/
theorem sadieRead_delivers {σ : Session} (h : Ready t records p σ M₀) {l : Link}
    (hrun : (call t σ M₀).Run t l) (hret : l.outcome = .returned 0) : Delivered M₀ p records l :=
  (fetched_of_run h.toCalling hrun hret).delivered h.range

section Undisturbed

variable {l₀ l : Link} {done : List (List Byte)} {payload : List Byte} {n a : ℕ}

/-- The transmission and the answer arrive. -/
def Link.heard (l : Link) : Fate := ⟨l.sent.map some, false⟩

theorem Link.heard_fair (l : Link) (stage : Stage) : l.Fair stage l.heard :=
  ⟨.inl rfl, fun h ↦ by cases h⟩

/-- The states of a call on an intact line. -/
inductive Link.Intact (t : Tape) (l₀ : Link) : Link → Prop
  | start : Intact t l₀ l₀
  | turn {l : Link} {stage : Stage} : Intact t l₀ l → l.outcome = .wait stage →
    Intact t l₀ (l.turn t stage l.heard)

theorem Link.Intact.run (h : l₀.Intact t l) : l₀.Run t l := by
  induction h with
  | start => exact .start
  | turn _ hout ih => exact .turn ih hout (Link.heard_fair _ _)

/-- The packets of a record arrive one after the other. -/
theorem undisturbed_record (hrun : l₀.Intact t l) (hout : l.outcome = .wait .packet)
    (h : Receiving t M₀ p records l done payload n a) {s : SadieServer}
    (hsession : l.session = (s.send payload a).1) (hsent : l.sent = (s.send payload a).2) :
    ∃ l', l₀.Intact t l' ∧ Next t M₀ p records l' (done ++ [payload]) n := by
  -- Induction on the blocks that are left.
  induction hleft : payload.length - a * 128 using Nat.strong_induction_on generalizing l a s with
  | _ left ih =>
    rw [SadieServer.send, xmodemBlockSize] at hsession hsent
    by_cases ha : a * 128 < payload.length
    · rw [if_pos ha] at hsession hsent
      have hev : l.heard.events = (recordPacket payload a).map some :=
        congrArg (List.map some) hsent
      have hw : l.session.waiting = .block payload a := by rw [hsession]
      obtain ⟨hout', h', hsession', hsent'⟩ := h.turn_heard hw ha (.inl rfl) hev rfl
      exact ih _ (by omega) (.turn hrun hout) hout' h' hsession' hsent' rfl
    · rw [if_neg ha] at hsession hsent
      have hw : l.session.waiting = .eot := by rw [hsession]
      exact ⟨_, .turn hrun hout,
        h.turn_eot hw (by omega) hsent (l.heard_fair _)⟩

/-- A call that nothing disturbs returns zero. -/
theorem undisturbed_returns (hrun : l₀.Intact t l) (h : Next t M₀ p records l done n) :
    ∃ l', l₀.Intact t l' ∧ l'.outcome = .returned 0 := by
  -- Induction on the records that may still be read.
  induction n generalizing l done with
  | zero =>
    cases h with
    | done h _ => exact ⟨l, hrun, h⟩
    | header h payload n' hn ha => omega
    | eof h he => exact ⟨_, .turn hrun h, (he.turn (l.heard_fair _)).1⟩
  | succ n ih =>
    cases h with
    | done h _ => exact ⟨l, hrun, h⟩
    | header h payload n' hn ha =>
      obtain rfl : n = n' := by omega
      obtain ⟨hout, hreceiving, hsession, hsent⟩ := ha.turn (l.heard_fair _)
      obtain ⟨l', hrun', hnext⟩ := undisturbed_record (.turn hrun h) hout hreceiving hsession hsent
      exact ih hrun' hnext
    | eof h he => exact ⟨_, .turn hrun h, (he.turn (l.heard_fair _)).1⟩

end Undisturbed

section Example

/-- Two records on one track. -/
def twoRecords : List (List Byte) := [[1, 2, 3], [4, 5, 6]]

def twoRecordTape : Tape where
  tracks := Dict.set ∅ 0 [twoRecords]

def twoRecordSession : Session where
  server := { track := some 0, file := some 0, record := some 0 }

/-- A call for four bytes at 0x100 of segment 1. -/
def fourBytes : Machine where
  cpu := { r3 := 5, r4 := 0x4000, r5 := 4, r6 := 0x100, r7 := 1, r15 := 0x8000, mem := fun _ ↦ 0 }
  phys := fun _ _ ↦ 0xFF

theorem fourBytes_ready :
    Ready twoRecordTape twoRecords ⟨0, 0, 0⟩ twoRecordSession fourBytes where
  waiting := rfl
  stream := rfl
  place := rfl
  file := rfl
  record := Nat.zero_le _
  range := by decide
  pointer := by decide

theorem sadieRead_delivers_fourBytes :
    goal fourBytes ⟨0, 0, 0⟩ twoRecords = [[1, 2, 3], [4]] ∧
      ∃ l, (call twoRecordTape twoRecordSession fourBytes).Run twoRecordTape l ∧
        l.outcome = .returned 0 ∧ Delivered fourBytes ⟨0, 0, 0⟩ twoRecords l := by
  obtain ⟨l, hrun, hret⟩ :=
    undisturbed_returns .start (call_next fourBytes_ready.toCalling)
  exact ⟨rfl, l, hrun.run, hret, sadieRead_delivers fourBytes_ready hrun.run hret⟩

end Example

end S8000.Sadie
