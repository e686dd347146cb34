import Mathlib.Data.List.Basic
import Mathlib.Tactic.Ring

namespace S8000.Foundation.Chunks

variable {α β : Type}

/-- An element of a list of equal chunks. -/
theorem getElem?_flatten {m : ℕ} (hm : 0 < m) {chunks : List (List α)}
    (h : ∀ c ∈ chunks, c.length = m) (k : ℕ) :
    chunks.flatten[k]? = chunks[k / m]?.bind (·[k % m]?) := by
  induction chunks generalizing k with
  | nil => simp
  | cons c chunks ih =>
    have hc : c.length = m := h c List.mem_cons_self
    rw [List.flatten_cons]
    by_cases hk : k < m
    · rw [List.getElem?_append_left (by omega), Nat.div_eq_of_lt hk, Nat.mod_eq_of_lt hk]
      rfl
    · obtain ⟨j, rfl⟩ : ∃ j, k = j + m := ⟨k - m, by omega⟩
      rw [List.getElem?_append_right (by omega), hc, Nat.add_sub_cancel,
        ih fun c' hc' ↦ h c' (List.mem_cons_of_mem c hc'), Nat.add_div_right j hm,
        Nat.add_mod_right, List.getElem?_cons_succ]

theorem length_flatten {m : ℕ} {chunks : List (List α)} (h : ∀ c ∈ chunks, c.length = m) :
    chunks.flatten.length = m * chunks.length := by
  induction chunks with
  | nil => rfl
  | cons c chunks ih =>
    rw [List.flatten_cons, List.length_append, h c List.mem_cons_self,
      ih fun c' hc' ↦ h c' (List.mem_cons_of_mem c hc'), List.length_cons]
    ring

theorem range_mul (a b : ℕ) :
    List.range (a * b) = (List.range a).flatMap fun i ↦ (List.range b).map (i * b + ·) := by
  induction a with
  | zero => simp
  | succ a ih =>
    rw [Nat.succ_mul, List.range_add, ih, List.range_succ, List.flatMap_append,
      List.flatMap_singleton]

theorem flatten_take_drop (l : List α) (n k : ℕ) :
    ((List.range k).map fun i ↦ (l.drop (i * n)).take n).flatten = l.take (k * n) := by
  induction k with
  | zero => simp
  | succ k ih =>
    rw [List.range_succ, List.map_append, List.flatten_append, ih, Nat.succ_mul, List.take_add]
    simp

section Events

/-- What a consumer sees of a generator that may fail: everything up to the first failure. -/
def upToFailure : List (Option α) → List (Option α)
  | [] => []
  | none :: _ => [none]
  | some a :: l => some a :: upToFailure l

theorem upToFailure_append (l l' : List (Option α)) :
    upToFailure (l ++ l') = upToFailure (upToFailure l ++ upToFailure l') := by
  have hidem : ∀ l : List (Option α), upToFailure (upToFailure l) = upToFailure l := by
    intro l
    induction l with
    | nil => rfl
    | cons a l ih =>
      cases a with
      | none => rfl
      | some a => rw [upToFailure, upToFailure, ih]
  induction l with
  | nil => exact (hidem l').symm
  | cons a l ih =>
    cases a with
    | none => rfl
    | some a => rw [List.cons_append, upToFailure, ih, upToFailure, List.cons_append, upToFailure]

theorem upToFailure_append_congr {l₁ l₂ l₁' l₂' : List (Option α)}
    (h : upToFailure l₁ = upToFailure l₂) (h' : upToFailure l₁' = upToFailure l₂') :
    upToFailure (l₁ ++ l₁') = upToFailure (l₂ ++ l₂') := by
  rw [upToFailure_append, h, h', ← upToFailure_append]

theorem upToFailure_flatMap_congr {f g : β → List (Option α)} {l : List β}
    (h : ∀ b ∈ l, upToFailure (f b) = upToFailure (g b)) :
    upToFailure (l.flatMap f) = upToFailure (l.flatMap g) := by
  induction l with
  | nil => rfl
  | cons b l ih =>
    rw [List.flatMap_cons, List.flatMap_cons]
    exact upToFailure_append_congr (h b List.mem_cons_self)
      (ih fun b' hb' ↦ h b' (List.mem_cons_of_mem b hb'))

/-- A consumer that wants `n` elements and asks once more before it stops. -/
def consume : ℕ → List (Option α) → List (Option α)
  | _, [] => []
  | _, none :: _ => [none]
  | 0, some _ :: _ => []
  | n + 1, some a :: l => some a :: consume n l

theorem consume_upToFailure (n : ℕ) (l : List (Option α)) : consume n (upToFailure l) = consume n l := by
  induction l generalizing n with
  | nil => rfl
  | cons a l ih =>
    cases a with
    | none => simp only [upToFailure, consume]
    | some a =>
      cases n with
      | zero => rfl
      | succ n => rw [upToFailure, consume, ih, consume]

theorem consume_congr {l l' : List (Option α)} (h : upToFailure l = upToFailure l') (n : ℕ) :
    consume n l = consume n l' := by
  rw [← consume_upToFailure, h, consume_upToFailure]

theorem length_consume_le {n : ℕ} {l : List (Option α)} (h : none ∉ consume n l) :
    (consume n l).length ≤ n := by
  induction l generalizing n with
  | nil => simp [consume]
  | cons a l ih =>
    cases a with
    | none => simp [consume] at h
    | some a =>
      cases n with
      | zero => exact Nat.le_refl 0
      | succ n =>
        rw [consume, List.mem_cons, not_or] at h
        exact Nat.succ_le_succ (ih h.2)

/-- All that was wanted has come, and asking once more does no harm. -/
theorem consume_eq_take {n : ℕ} {l : List (Option α)} (h : ∀ i < n, ∃ a, l[i]? = some (some a))
    (hnext : l[n]? ≠ some none) : consume n l = l.take n := by
  induction l generalizing n with
  | nil => simp [consume]
  | cons a l ih =>
    cases n with
    | zero =>
      cases a with
      | none => simp at hnext
      | some a => rfl
    | succ n =>
      obtain ⟨a', ha'⟩ := h 0 (Nat.succ_pos n)
      obtain rfl : a = some a' := by simpa using ha'
      rw [consume, List.take_succ_cons, ih (fun i hi ↦ h (i + 1) (by omega)) (by simpa using hnext)]

theorem of_consume {n : ℕ} {l : List (Option α)} (h : none ∉ consume n l)
    (hlen : (consume n l).length = n) :
    (∀ i < n, ∃ a, l[i]? = some (some a)) ∧ l[n]? ≠ some none := by
  induction l generalizing n with
  | nil =>
    obtain rfl : n = 0 := by simpa [consume] using hlen.symm
    simp
  | cons a l ih =>
    cases a with
    | none => simp [consume] at h
    | some a =>
      cases n with
      | zero => simp
      | succ n =>
        rw [consume, List.mem_cons, not_or] at h
        obtain ⟨hall, hnext⟩ := ih h.2 (by simpa [consume] using hlen)
        refine ⟨fun i hi ↦ ?_, by simpa using hnext⟩
        cases i with
        | zero => exact ⟨a, rfl⟩
        | succ i => simpa using hall i (by omega)

end Events

end S8000.Foundation.Chunks
