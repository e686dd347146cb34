import Mathlib.Data.List.Basic
import Mathlib.Algebra.Order.Ring.Nat
import Mathlib.Tactic.Push

/-! Sparse sequences: lists of optional entries, compared up to the holes behind their last
entry. -/

namespace S8000.Foundation.Holes

variable {α : Type}

/-- The entry at index `i`, or nothing at a hole and behind the end. -/
def entry (s : List (Option α)) (i : ℕ) : Option α := s[i]?.join

/-- The number of places up to and including the last entry. -/
def extent : List (Option α) → ℕ
  | [] => 0
  | o :: s => if extent s = 0 ∧ o = none then 0 else extent s + 1

def strip (s : List (Option α)) : List (Option α) := s.take (extent s)

@[simp] theorem entry_nil (i : ℕ) : entry ([] : List (Option α)) i = none := by simp [entry]

@[simp] theorem entry_cons_zero (o : Option α) (s : List (Option α)) : entry (o :: s) 0 = o := by
  simp [entry]

@[simp] theorem entry_cons_succ (o : Option α) (s : List (Option α)) (i : ℕ) :
    entry (o :: s) (i + 1) = entry s i := by
  simp [entry]

theorem entry_append (a b : List (Option α)) (i : ℕ) :
    entry (a ++ b) i = if i < a.length then entry a i else entry b (i - a.length) := by
  simp only [entry]
  split
  · rw [List.getElem?_append_left (by assumption)]
  · rw [List.getElem?_append_right (by omega)]

theorem entry_of_length_le {s : List (Option α)} {i : ℕ} (h : s.length ≤ i) : entry s i = none := by
  rw [entry, List.getElem?_eq_none h]
  rfl

theorem extent_le_length (s : List (Option α)) : extent s ≤ s.length := by
  induction s with
  | nil => exact le_rfl
  | cons o s ih =>
    rw [extent, List.length_cons]
    split <;> omega

theorem extent_le_iff (s : List (Option α)) (n : ℕ) :
    extent s ≤ n ↔ ∀ i, n ≤ i → entry s i = none := by
  induction s generalizing n with
  | nil => simp [extent]
  | cons o s ih =>
    rw [extent]
    by_cases h0 : extent s = 0 ∧ o = none
    · rw [if_pos h0]
      have hs := (ih 0).mp (by omega)
      refine ⟨fun _ i _ ↦ ?_, fun _ ↦ Nat.zero_le n⟩
      cases i with
      | zero => simp [h0.2]
      | succ i => simpa using hs i (Nat.zero_le i)
    · rw [if_neg h0]
      cases n with
      | zero =>
        refine ⟨fun h ↦ by omega, fun h ↦ absurd ⟨?_, ?_⟩ h0⟩
        · have hs : extent s ≤ 0 := (ih 0).mpr fun i _ ↦ by simpa using h (i + 1) (Nat.zero_le _)
          omega
        · simpa using h 0 le_rfl
      | succ n =>
        rw [Nat.add_le_add_iff_right, ih]
        refine ⟨fun h i hi ↦ ?_, fun h i hi ↦ by simpa using h (i + 1) (by omega)⟩
        cases i with
        | zero => omega
        | succ i => simpa using h i (by omega)

theorem extent_eq_zero_iff (s : List (Option α)) : extent s = 0 ↔ ∀ i, entry s i = none := by
  rw [← Nat.le_zero, extent_le_iff]
  exact ⟨fun h i ↦ h i (Nat.zero_le i), fun h i _ ↦ h i⟩

theorem extent_congr {s t : List (Option α)} (h : ∀ i, entry s i = entry t i) :
    extent s = extent t := by
  apply le_antisymm
  · exact (extent_le_iff s _).mpr fun i hi ↦ (h i).trans ((extent_le_iff t _).mp le_rfl i hi)
  · exact (extent_le_iff t _).mpr fun i hi ↦ (h i).symm.trans ((extent_le_iff s _).mp le_rfl i hi)

theorem entry_strip (s : List (Option α)) (i : ℕ) : entry (strip s) i = entry s i := by
  by_cases h : i < extent s
  · rw [entry, strip, List.getElem?_take, if_pos h]
    rfl
  · rw [(extent_le_iff s _).mp le_rfl i (by omega), entry_of_length_le]
    rw [strip, List.length_take]
    omega

theorem length_strip (s : List (Option α)) : (strip s).length = extent s := by
  rw [strip, List.length_take, Nat.min_eq_left (extent_le_length s)]

theorem extent_strip (s : List (Option α)) : extent (strip s) = extent s :=
  extent_congr (entry_strip s)

theorem extent_append (a b : List (Option α)) :
    extent (a ++ b) = if extent b = 0 then extent a else a.length + extent b := by
  induction a with
  | nil => by_cases h : extent b = 0 <;> simp [extent, h]
  | cons o a ih =>
    rw [List.cons_append, extent, ih]
    by_cases h : extent b = 0
    · simp only [h, if_true]
      rw [extent]
    · simp only [h, if_false, List.length_cons]
      rw [if_neg (by omega)]
      omega

theorem entry_append_of_empty {a b : List (Option α)} (h : extent b = 0) (i : ℕ) :
    entry (a ++ b) i = entry a i := by
  rw [entry_append]
  split
  · rfl
  · rw [(extent_eq_zero_iff b).mp h, entry_of_length_le (by omega)]

theorem extent_eq_length_iff (s : List (Option α)) :
    extent s = s.length ↔ s.getLast? ≠ some none := by
  induction s with
  | nil => simp [extent]
  | cons o s ih =>
    have hle := extent_le_length s
    cases s with
    | nil => cases o <;> simp [extent]
    | cons p s =>
      rw [List.getLast?_cons_cons, ← ih, extent, List.length_cons]
      split
      · rename_i h
        rw [List.length_cons] at *
        omega
      · omega

theorem extent_ne_zero_iff (s : List (Option α)) : extent s ≠ 0 ↔ ∃ a, some a ∈ s := by
  rw [ne_eq, extent_eq_zero_iff]
  constructor
  · intro h
    push Not at h
    obtain ⟨i, hi⟩ := h
    obtain ⟨a, ha⟩ := Option.ne_none_iff_exists'.mp hi
    exact ⟨a, List.mem_of_getElem? (Option.join_eq_some_iff.mp ha)⟩
  · rintro ⟨a, ha⟩ h
    obtain ⟨i, hi⟩ := List.mem_iff_getElem?.mp ha
    have := h i
    rw [entry, hi] at this
    cases this

/-- No piece that ends in a hole stands before a piece with an entry. -/
def Aligned (pieces : List (List (Option α))) : Prop :=
  pieces.Pairwise fun a b ↦ (∃ x, some x ∈ b) → a.getLast? ≠ some none

theorem exists_mem_flatten_iff (pieces : List (List (Option α))) :
    (∃ x, some x ∈ pieces.flatten) ↔ ∃ b ∈ pieces, ∃ x, some x ∈ b := by
  simp only [List.mem_flatten]
  exact ⟨fun ⟨x, b, hb, hx⟩ ↦ ⟨b, hb, x, hx⟩, fun ⟨b, hb, x, hx⟩ ↦ ⟨x, b, hb, hx⟩⟩

theorem aligned_cons (s : List (Option α)) (pieces : List (List (Option α))) :
    Aligned (s :: pieces) ↔ (extent pieces.flatten ≠ 0 → extent s = s.length) ∧ Aligned pieces := by
  rw [Aligned, List.pairwise_cons, extent_ne_zero_iff, exists_mem_flatten_iff,
    extent_eq_length_iff]
  exact and_congr ⟨fun h ⟨b, hb, hx⟩ ↦ h b hb hx, fun h b hb hx ↦ h ⟨b, hb, hx⟩⟩ Iff.rfl

theorem extent_flatMap_strip (pieces : List (List (Option α))) :
    extent (pieces.flatMap strip) ≤ extent pieces.flatten ∧
      (extent (pieces.flatMap strip) = 0 ↔ extent pieces.flatten = 0) ∧
      (extent (pieces.flatMap strip) = extent pieces.flatten → Aligned pieces) := by
  induction pieces with
  | nil => simp [extent, Aligned]
  | cons s pieces ih =>
    obtain ⟨hle, hzero, halign⟩ := ih
    have hs := extent_le_length s
    rw [List.flatMap_cons, List.flatten_cons, extent_append, extent_append, extent_strip,
      length_strip, aligned_cons]
    by_cases h0 : extent pieces.flatten = 0
    · have h0' := hzero.mpr h0
      refine ⟨by simp [h0, h0'], by simp [h0, h0'], fun _ ↦ ⟨fun h ↦ absurd h0 h, ?_⟩⟩
      exact halign (h0'.trans h0.symm)
    · have h0' : ¬ extent (pieces.flatMap strip) = 0 := fun h ↦ h0 (hzero.mp h)
      rw [if_neg h0, if_neg h0']
      refine ⟨by omega, by omega, fun h ↦ ⟨fun _ ↦ by omega, halign (by omega)⟩⟩

/-- Dropping the trailing holes of every piece keeps all entries in place exactly when the
pieces are aligned. -/
theorem entry_flatMap_strip_iff (pieces : List (List (Option α))) :
    (∀ i, entry (pieces.flatMap strip) i = entry pieces.flatten i) ↔ Aligned pieces := by
  refine ⟨fun h ↦ (extent_flatMap_strip pieces).2.2 (extent_congr h), fun h ↦ ?_⟩
  induction pieces with
  | nil => exact fun i ↦ rfl
  | cons s pieces ih =>
    obtain ⟨hs, hp⟩ := (aligned_cons s pieces).mp h
    intro i
    rw [List.flatMap_cons, List.flatten_cons]
    by_cases h0 : extent pieces.flatten = 0
    · rw [entry_append_of_empty h0,
        entry_append_of_empty ((extent_flatMap_strip pieces).2.1.mpr h0), entry_strip]
    · have hstrip : strip s = s := by rw [strip, hs h0, List.take_length]
      rw [hstrip, entry_append, entry_append, ih hp]

/-- The first entry that is left when every piece loses its trailing holes. -/
theorem entry_flatMap_strip_zero (pieces : List (List (Option α))) :
    entry (pieces.flatMap strip) 0 =
      ((pieces.find? fun s ↦ extent s ≠ 0).bind List.head?).join := by
  induction pieces with
  | nil => rfl
  | cons s pieces ih =>
    rw [List.flatMap_cons, entry_append, length_strip, List.find?_cons]
    by_cases h : extent s = 0
    · simp [h, ih]
    · cases s with
      | nil => exact absurd rfl h
      | cons o s =>
        rw [if_pos (by omega), entry_strip]
        simp [h]

end S8000.Foundation.Holes
