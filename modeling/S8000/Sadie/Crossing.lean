import S8000.Sadie.ReadCall

namespace S8000.Sadie

open Foundation Foundation.Bytes Foundation.Segments Serial

variable {t : Tape} {records : List (List Byte)} {p : Place} {σ : Session} {M₀ : Machine}

/-- On an intact line, and over any contents of physical memory, the call returns zero with byte `k`
of what it reads at the linear address `k` behind its destination, and nothing else changed. -/
def StoresLinearly (t : Tape) (σ : Session) (M₀ : Machine) (data : List Byte) : Prop :=
  ∀ phys : Segment → Memory, ∃ l, (call t σ { M₀ with phys := phys }).Intact t l ∧
    l.outcome = .returned 0 ∧ Linear (destination M₀) data phys l.machine.phys

theorem calling_phys (h : Calling t records p σ M₀) (phys : Segment → Memory) :
    Calling t records p σ { M₀ with phys := phys } :=
  ⟨h.waiting, h.stream, h.place, h.file, h.record, h.pointer⟩

theorem intact_returns (h : Calling t records p σ M₀) :
    ∃ l, (call t σ M₀).Intact t l ∧ l.outcome = .returned 0 :=
  undisturbed_returns .start (call_next h)

/-- The pieces that the packets carry decide. -/
theorem storesLinearly_iff_linear (h : Calling t records p σ M₀) :
    StoresLinearly t σ M₀ (goal M₀ p records).flatten ↔
      ∀ phys : Segment → Memory, Linear (destination M₀) (pieces (goal M₀ p records)).flatten phys
        (storeBlocks (destination M₀) phys (pieces (goal M₀ p records))) := by
  refine forall_congr' fun phys ↦ ?_
  have hcalling := calling_phys h phys
  have hphys : ∀ {l : Link}, (call t σ { M₀ with phys := phys }).Intact t l →
      l.outcome = .returned 0 →
      l.machine.phys = storeBlocks (destination M₀) phys (pieces (goal M₀ p records)) :=
    fun hrun hret ↦ (fetched_of_run hcalling hrun.run hret).phys
  rw [flatten_pieces]
  constructor
  · rintro ⟨l, hrun, hret, hlinear⟩
    rwa [hphys hrun hret] at hlinear
  · intro hlinear
    obtain ⟨l, hrun, hret⟩ := intact_returns hcalling
    refine ⟨l, hrun, hret, ?_⟩
    rwa [hphys hrun hret]

theorem length_pieces_le (h : Calling t records p σ M₀) :
    (pieces (goal M₀ p records)).flatten.length ≤ 65536 := by
  obtain ⟨l, hrun, hret⟩ := intact_returns h
  have hbound := (fetched_of_run h hrun.run hret).bound
  have hr5 := M₀.cpu.r5.isLt
  rw [flatten_pieces]
  omega

/-- A read is stored linearly exactly when no packet of it goes on behind the end of a segment. -/
theorem sadieRead_linear_iff (t : Tape) (records : List (List Byte)) (p : Place) (σ : Session)
    (M₀ : Machine) (h : Calling t records p σ M₀) :
    StoresLinearly t σ M₀ (goal M₀ p records).flatten ↔
      ¬ Straddles (destination M₀) (pieces (goal M₀ p records)) :=
  (storesLinearly_iff_linear h).trans (linear_storeBlocks_iff (by decide) (length_pieces_le h))

section Example

/-- A call for four bytes two bytes before the end of segment 1. -/
def fourBytesAcross : Machine :=
  { fourBytes with cpu := { fourBytes.cpu with r6 := 0xFFFE } }

theorem fourBytesAcross_calling :
    Calling twoRecordTape twoRecords ⟨0, 0, 0⟩ twoRecordSession fourBytesAcross where
  waiting := rfl
  stream := rfl
  place := rfl
  file := rfl
  record := Nat.zero_le _
  pointer := by decide

theorem pieces_fourBytes :
    pieces (goal fourBytes ⟨0, 0, 0⟩ twoRecords) = [[1, 2, 3], [4]] := by decide

theorem sadieRead_linear_iff_fourBytes :
    StoresLinearly twoRecordTape twoRecordSession fourBytes
      (goal fourBytes ⟨0, 0, 0⟩ twoRecords).flatten := by
  refine (sadieRead_linear_iff _ _ _ _ _ fourBytes_ready.toCalling).mpr ?_
  rw [pieces_fourBytes]
  exact not_straddles (by decide)

/-- The first record begins two bytes before the end of the segment: its third byte goes to the
beginning of that segment instead of the next one. -/
theorem crossing_packet_misplaced :
    ¬ StoresLinearly twoRecordTape twoRecordSession fourBytesAcross
      (goal fourBytesAcross ⟨0, 0, 0⟩ twoRecords).flatten := by
  have hpieces : pieces (goal fourBytesAcross ⟨0, 0, 0⟩ twoRecords) = [[1, 2, 3], [4]] := by decide
  rw [storesLinearly_iff_linear fourBytesAcross_calling,
    linear_storeBlocks_iff (by decide) (length_pieces_le fourBytesAcross_calling), hpieces, not_not]
  exact .inl (by decide)

end Example

end S8000.Sadie
