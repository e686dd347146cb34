import Mathlib.Data.Nat.Count
import Mathlib.Algebra.BigOperators.Pi
import Mathlib.Algebra.Order.BigOperators.Group.Finset

/-! How often a value stands in tables, when one entry or one table changes. -/

namespace S8000.Foundation

section Table

variable {α : Type*} [DecidableEq α] {f g : ℕ → α} {k n : ℕ}

theorem count_congr (h : ∀ m < n, g m = f m) (a : α) : Nat.count (g · = a) n = Nat.count (f · = a) n := by
  induction n with
  | zero => rw [Nat.count_zero, Nat.count_zero]
  | succ n ih =>
    rw [Nat.count_succ, Nat.count_succ, ih fun m hm ↦ h m (Nat.lt_succ_of_lt hm), h n (Nat.lt_succ_self n)]

/-- An entry of a table changes, or one is put behind the others. -/
theorem count_update (h : k ≤ n) (hother : ∀ m, m ≠ k → g m = f m) (a : α) :
    Nat.count (g · = a) (max n (k + 1)) + (if k < n ∧ f k = a then 1 else 0) =
      Nat.count (f · = a) n + if g k = a then 1 else 0 := by
  rcases h.lt_or_eq with hlt | rfl
  · have hmax : max n (k + 1) = n := max_eq_left hlt
    rw [hmax]
    clear h hmax
    induction n with
    | zero => exact absurd hlt (Nat.not_lt_zero k)
    | succ n ih =>
      rw [Nat.count_succ, Nat.count_succ]
      rcases Nat.lt_succ_iff_lt_or_eq.mp hlt with hlt' | rfl
      · have hih := ih hlt'
        rw [hother n hlt'.ne']
        simp only [hlt, hlt', true_and] at hih ⊢
        omega
      · rw [count_congr (fun m hm ↦ hother m hm.ne) a]
        simp only [hlt, true_and]
        omega
  · have hno : ¬ (k < k ∧ f k = a) := fun hlt ↦ lt_irrefl k hlt.1
    rw [max_eq_right (Nat.le_succ k), Nat.count_succ, count_congr (fun m hm ↦ hother m hm.ne) a, if_neg hno, Nat.add_zero]

theorem count_pos {a : α} (hk : k < n) (h : f k = a) : 0 < Nat.count (f · = a) n := by
  have hone : Nat.count (f · = a) (k + 1) = Nat.count (f · = a) k + 1 := by
    rw [Nat.count_succ, if_pos h]
  have hmono : Nat.count (f · = a) (k + 1) ≤ Nat.count (f · = a) n := Nat.count_monotone _ hk
  omega

theorem count_eq_zero {a : α} (h : ∀ k < n, f k ≠ a) : Nat.count (f · = a) n = 0 := by
  induction n with
  | zero => exact Nat.count_zero _
  | succ n ih => rw [Nat.count_succ, ih fun k hk ↦ h k (Nat.lt_succ_of_lt hk), if_neg (h n (Nat.lt_succ_self n))]

end Table

section Tables

variable {β : Type*} {n d : ℕ}

/-- One of several tables changes. -/
theorem sum_update (hd : d < n) (g : β → ℕ) (t : ℕ → β) (b : β) :
    (∑ j ∈ Finset.range n, g (Function.update t d b j)) + g (t d) = (∑ j ∈ Finset.range n, g (t j)) + g b := by
  have hmem : d ∈ Finset.range n := Finset.mem_range.mpr hd
  have hold := Finset.sum_erase_add (Finset.range n) (fun j ↦ g (t j)) hmem
  have hnew := Finset.sum_erase_add (Finset.range n) (fun j ↦ g (Function.update t d b j)) hmem
  have hrest : (∑ j ∈ (Finset.range n).erase d, g (Function.update t d b j)) = ∑ j ∈ (Finset.range n).erase d, g (t j) :=
    Finset.sum_congr rfl fun j hj ↦ by rw [Function.update_of_ne (Finset.ne_of_mem_erase hj)]
  rw [hrest, Function.update_self] at hnew
  omega

theorem le_sum (hd : d < n) (g : ℕ → ℕ) : g d ≤ ∑ j ∈ Finset.range n, g j :=
  Finset.single_le_sum (fun _ _ ↦ Nat.zero_le _) (Finset.mem_range.mpr hd)

end Tables

end S8000.Foundation
