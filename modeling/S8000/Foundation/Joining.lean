import Mathlib.Data.List.Basic

namespace S8000.Foundation.Joining

variable {α : Type} {x : α} {sep : List α} {ls : List (List α)}

theorem intercalate_concat (h : ls ≠ []) (l : List α) :
    sep.intercalate (ls ++ [l]) = sep.intercalate ls ++ sep ++ l := by
  induction ls with
  | nil => exact absurd rfl h
  | cons k ls ih =>
    cases ls with
    | nil => simp [List.intercalate_cons_cons]
    | cons m ls =>
      rw [List.cons_append, List.cons_append, List.intercalate_cons_cons, ← List.cons_append,
        ih (List.cons_ne_nil m ls), List.intercalate_cons_cons]
      simp only [List.append_assoc]

theorem mem_of_mem_intercalate (h : x ∈ sep.intercalate ls) : x ∈ sep ∨ ∃ l ∈ ls, x ∈ l := by
  induction ls with
  | nil => cases h
  | cons k ls ih =>
    cases ls with
    | nil => exact .inr ⟨k, List.mem_singleton_self k, by simpa using h⟩
    | cons m ls =>
      rw [List.intercalate_cons_cons, List.mem_append, List.mem_append] at h
      rcases h with (h | h) | h
      · exact .inr ⟨k, List.mem_cons_self, h⟩
      · exact .inl h
      · refine (ih h).imp id ?_
        rintro ⟨l, hl, hx⟩
        exact ⟨l, List.mem_cons_of_mem _ hl, hx⟩

theorem mem_intercalate_of_mem {l : List α} (hl : l ∈ ls) (hx : x ∈ l) : x ∈ sep.intercalate ls := by
  induction ls with
  | nil => cases hl
  | cons k ls ih =>
    cases ls with
    | nil =>
      rw [List.mem_singleton.mp hl] at hx
      simpa using hx
    | cons m ls =>
      rw [List.intercalate_cons_cons, List.mem_append, List.mem_append]
      rcases List.mem_cons.mp hl with rfl | hl
      · exact .inl (.inl hx)
      · exact .inr (ih hl)

/-- A list is cut in one way at the first separator. -/
theorem append_cons_unique {l l' r r' : List α} (hl : x ∉ l) (hl' : x ∉ l')
    (h : l ++ x :: r = l' ++ x :: r') : l = l' ∧ r = r' := by
  induction l generalizing l' with
  | nil =>
    cases l' with
    | nil => exact ⟨rfl, (List.cons.inj h).2⟩
    | cons a l' => exact absurd ((List.cons.inj h).1 ▸ List.mem_cons_self) hl'
  | cons a l ih =>
    cases l' with
    | nil => exact absurd ((List.cons.inj h).1 ▸ List.mem_cons_self) hl
    | cons a' l' =>
      rw [List.mem_cons, not_or] at hl hl'
      obtain ⟨rfl, hrest⟩ := List.cons.inj h
      obtain ⟨rfl, hr⟩ := ih hl.2 hl'.2 hrest
      exact ⟨rfl, hr⟩

/-- The pieces of a split hold no separator. -/
theorem notMem_of_mem_splitOn [BEq α] [LawfulBEq α] {s l : List α} (h : l ∈ s.splitOn x) : x ∉ l := by
  induction s generalizing l with
  | nil =>
    rw [List.splitOn_nil, List.mem_singleton] at h
    rw [h]
    exact List.not_mem_nil
  | cons c s ih =>
    rw [List.splitOn_cons_eq_if_modifyHead] at h
    split at h
    · rcases List.mem_cons.mp h with rfl | h
      · exact List.not_mem_nil
      · exact ih h
    · rename_i hc
      cases hsplit : s.splitOn x with
      | nil => exact absurd hsplit (List.splitOn_ne_nil _ _)
      | cons k ks =>
        rw [hsplit] at ih
        rw [hsplit, List.modifyHead_cons] at h
        rcases List.mem_cons.mp h with rfl | h
        · rw [List.mem_cons, not_or]
          exact ⟨fun hx ↦ hc (beq_iff_eq.mpr hx.symm), ih List.mem_cons_self⟩
        · exact ih (List.mem_cons_of_mem _ h)

end S8000.Foundation.Joining
