import S8000.Monitor.Disasm

namespace S8000.Monitor

open Foundation

section Flow

def window : ℤ := 0x400

/-- Unconditional flow terminators: nothing after them is necessarily code. -/
def terminators : List String := ["iret", "halt"]

/-- The condition `t` makes these terminate; any other condition falls through. -/
def condTerm : List String := ["jp", "jr", "ret"]

def calls : List String := ["call", "calr"]

def branches : List String := ["jp", "jr", "djnz", "dbjnz"]

/-- The address that a call or a branch names. -/
def Insn.target (i : Insn) : Option ℤ :=
  if i.mnem ∈ calls ∨ i.mnem ∈ branches then (searchTarget i.ops).map fun m ↦ (m.2 : ℤ) else none

/-- Control does not go on behind the instruction. -/
def Insn.Terminates (i : Insn) : Prop :=
  i.mnem ∈ terminators ∨ i.mnem ∈ condTerm ∧ (i.ops = ['t'] ∨ ['t', ','].isPrefixOf i.ops)

instance (i : Insn) : Decidable i.Terminates := inferInstanceAs (Decidable (_ ∨ _ ∧ _))

end Flow

section Trace

/-- The addresses still to be looked at stand with the last one appended first. -/
structure State where
  code : Dict ℤ Insn
  pending : List ℤ
  seen : List ℤ

/-- `if target is not None and target not in code: pending.append(target)`. -/
def addTarget (code : Dict ℤ Insn) (pending : List ℤ) : Option ℤ → List ℤ
  | none => pending
  | some target => if target ∈ code then pending else target :: pending

/-- The loop over the instructions listed for one seed. -/
def follow (code : Dict ℤ Insn) (pending : List ℤ) : List (ℤ × Insn) → Dict ℤ Insn × List ℤ
  | [] => (code, pending)
  | (addr, i) :: rest =>
    if addr ∈ code then (code, pending)
    else if i.Terminates then (code.set addr i, addTarget (code.set addr i) pending i.target)
    else follow (code.set addr i) (addTarget (code.set addr i) pending i.target) rest

variable (decode : Decoder) (size : ℤ)

/-- The listing that is made for a seed. -/
def listing (seed : ℤ) : List (ℤ × Insn) := disasm decode seed (min (seed + window) size)

/-- The seed is passed over. -/
def State.Skips (s : State) (seed : ℤ) : Prop := seed ∈ s.code ∨ seed ∈ s.seen ∨ ¬ (0 ≤ seed ∧ seed < size)

instance (s : State) (seed : ℤ) : Decidable (s.Skips size seed) := inferInstanceAs (Decidable (_ ∨ _ ∨ _))

/-- One turn of the loop over the pending addresses. -/
def step (s : State) : Option State :=
  match s.pending with
  | [] => none
  | seed :: pending =>
    if s.Skips size seed then some { s with pending }
    else
      let next := follow s.code pending (listing decode size seed)
      some ⟨next.1, next.2, seed :: s.seen⟩

/-- The addresses of the image that have not been seeds. -/
def unseen (seen : List ℤ) : Finset ℕ := (Finset.range size.toNat).filter fun a ↦ (a : ℤ) ∉ seen

theorem card_unseen_cons {size : ℤ} {seen : List ℤ} {seed : ℤ} (hlt : 0 ≤ seed ∧ seed < size) (h : seed ∉ seen) :
    (unseen size (seed :: seen)).card < (unseen size seen).card := by
  refine Finset.card_lt_card ⟨fun a ha ↦ ?_, fun hsub ↦ ?_⟩
  · simp only [unseen, Finset.mem_filter, List.mem_cons, not_or] at ha ⊢
    exact ⟨ha.1, ha.2.2⟩
  · have hcast : (seed.toNat : ℤ) = seed := Int.toNat_of_nonneg hlt.1
    have hmem : seed.toNat ∈ unseen size (seed :: seen) := by
      refine hsub (Finset.mem_filter.mpr ⟨Finset.mem_range.mpr (by omega), ?_⟩)
      rwa [hcast]
    simp [unseen, hcast] at hmem

variable {decode size}

/-- What one turn can do. -/
theorem step_cases {s s' : State} (h : step decode size s = some s') :
    ∃ seed pending, s.pending = seed :: pending ∧
      (s.Skips size seed ∧ s' = { s with pending } ∨
        ¬ s.Skips size seed ∧ s' = ⟨(follow s.code pending (listing decode size seed)).1,
          (follow s.code pending (listing decode size seed)).2, seed :: s.seen⟩) := by
  unfold step at h
  split at h
  · cases h
  · rename_i seed pending hpending
    refine ⟨seed, pending, hpending, ?_⟩
    split at h
    · rename_i hskip
      exact .inl ⟨hskip, (Option.some.inj h).symm⟩
    · rename_i hskip
      exact .inr ⟨hskip, (Option.some.inj h).symm⟩

theorem step_follow {s : State} {seed : ℤ} {pending : List ℤ} (h : s.pending = seed :: pending)
    (hskip : ¬ s.Skips size seed) :
    step decode size s = some ⟨(follow s.code pending (listing decode size seed)).1,
      (follow s.code pending (listing decode size seed)).2, seed :: s.seen⟩ := by
  rw [step, h]
  exact if_neg hskip

theorem step_eq_none {s : State} (h : step decode size s = none) : s.pending = [] := by
  unfold step at h
  split at h
  · assumption
  · split at h
    · cases h
    · cases h

/-- Every turn uses up a pending address or an address of the image. -/
theorem step_measure {s s' : State} (h : step decode size s = some s') :
    Prod.Lex (· < ·) (· < ·) ((unseen size s'.seen).card, s'.pending.length)
      ((unseen size s.seen).card, s.pending.length) := by
  obtain ⟨seed, pending, hpending, ⟨-, rfl⟩ | ⟨hskip, rfl⟩⟩ := step_cases h
  · rw [hpending]
    exact Prod.Lex.right _ (Nat.lt_succ_self _)
  · simp only [State.Skips, not_or, not_not] at hskip
    exact Prod.Lex.left _ _ (card_unseen_cons hskip.2.2 hskip.2.1)

variable (decode size)

def traceLoop (s : State) : Dict ℤ Insn :=
  match _h : step decode size s with
  | none => s.code
  | some s' => traceLoop s'
termination_by ((unseen size s.seen).card, s.pending.length)
decreasing_by exact step_measure _h

/-- Nothing is left to look at. -/
theorem traceLoop_done {s : State} (h : s.pending = []) : traceLoop decode size s = s.code := by
  have hnone : step decode size s = none := by rw [step, h]
  rw [traceLoop]
  split
  · rfl
  · rename_i s' hsome
    cases hnone.symm.trans hsome

theorem traceLoop_step {s s' : State} (h : step decode size s = some s') :
    traceLoop decode size s = traceLoop decode size s' := by
  rw [traceLoop]
  split
  · rename_i hnone
    cases hnone.symm.trans h
  · rename_i s'' hsome
    rw [Option.some.inj (h.symm.trans hsome)]

/-- `pending.pop()` takes the last seed first. -/
def start (seeds : List ℤ) : State := ⟨∅, seeds.reverse, []⟩

def trace (seeds : List ℤ) : Dict ℤ Insn := traceLoop decode size (start seeds)

/-- The states that the loop passes through. -/
def Reached (seeds : List ℤ) : State → Prop :=
  Relation.ReflTransGen (fun s s' ↦ step decode size s = some s') (start seeds)

variable {decode size}

/-- The loop ends in a state that it reaches, with nothing left to look at. -/
theorem traceLoop_reached {seeds : List ℤ} {s : State} (h : Reached decode size seeds s) :
    ∃ t, Reached decode size seeds t ∧ Relation.ReflTransGen (fun s s' ↦ step decode size s = some s') s t ∧
      t.pending = [] ∧ traceLoop decode size s = t.code := by
  induction s using traceLoop.induct decode size with
  | case1 s hnone => exact ⟨s, h, .refl, step_eq_none hnone, traceLoop_done decode size (step_eq_none hnone)⟩
  | case2 s s' hstep ih =>
    obtain ⟨t, ht, hrun, hpending, htrace⟩ := ih (h.tail hstep)
    exact ⟨t, ht, .head hstep hrun, hpending, (traceLoop_step decode size hstep).trans htrace⟩

end Trace

end S8000.Monitor
