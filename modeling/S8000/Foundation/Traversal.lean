import Mathlib.Data.List.Forall2

namespace S8000.Foundation.Traversal

variable {α β ε : Type}

/-- A traversal in `Except` succeeds when every step does. -/
theorem mapM_eq_ok {f : α → Except ε β} {l : List α} {r : List β} :
    l.mapM f = .ok r ↔ List.Forall₂ (fun a b ↦ f a = .ok b) l r := by
  induction l generalizing r with
  | nil =>
    simp only [List.mapM_nil, pure, Except.pure, Except.ok.injEq, List.forall₂_nil_left_iff]
    exact eq_comm
  | cons a l ih =>
    rw [List.mapM_cons, List.forall₂_cons_left_iff]
    cases ha : f a with
    | error e =>
      constructor
      · intro h
        cases h
      · rintro ⟨b, -, hb, -⟩
        cases hb
    | ok b =>
      cases hl : l.mapM f with
      | error e =>
        constructor
        · intro h
          cases h
        · rintro ⟨-, r', -, hr', -⟩
          rw [ih.mpr hr'] at hl
          cases hl
      | ok r' =>
        simp only [bind, Except.bind, pure, Except.pure, Except.ok.injEq]
        constructor
        · intro h
          exact ⟨b, r', rfl, ih.mp hl, h.symm⟩
        · rintro ⟨b', r'', rfl, hr', rfl⟩
          rw [ih.mpr hr', Except.ok.injEq] at hl
          rw [hl]

/-- The same in `Option`. -/
theorem mapM_eq_some {f : α → Option β} {l : List α} {r : List β} :
    l.mapM f = some r ↔ List.Forall₂ (fun a b ↦ f a = some b) l r := by
  induction l generalizing r with
  | nil => simp [eq_comm]
  | cons a l ih =>
    rw [List.mapM_cons, List.forall₂_cons_left_iff]
    simp only [Option.bind_eq_bind, Option.bind_eq_some_iff, Option.pure_def, Option.some.injEq]
    constructor
    · rintro ⟨b, hb, r', hr', rfl⟩
      exact ⟨b, r', hb, ih.mp hr', rfl⟩
    · rintro ⟨b, r', hb, hr', rfl⟩
      exact ⟨b, hb, r', ih.mpr hr', rfl⟩

theorem exists_of_mapM_eq_ok {f : α → Except ε β} {l : List α} {r : List β} (h : l.mapM f = .ok r) {b : β}
    (hb : b ∈ r) : ∃ a ∈ l, f a = .ok b := by
  have hall := mapM_eq_ok.mp h
  clear h
  induction hall with
  | nil => cases hb
  | @cons a b' l r ha _ ih =>
    rcases List.mem_cons.mp hb with rfl | hb
    · exact ⟨a, List.mem_cons_self, ha⟩
    · obtain ⟨a', ha', hok⟩ := ih hb
      exact ⟨a', List.mem_cons_of_mem a ha', hok⟩

/-- A step that returns its argument, when it returns. -/
theorem mapM_eq_ok_self {f : α → Except ε α} {p : α → Prop} (h : ∀ a b, f a = .ok b ↔ p a ∧ a = b)
    {l r : List α} : l.mapM f = .ok r ↔ (∀ a ∈ l, p a) ∧ l = r := by
  simp only [mapM_eq_ok, h]
  constructor
  · intro hr
    induction hr with
    | nil => exact ⟨fun a ha ↦ absurd ha List.not_mem_nil, rfl⟩
    | cons hab _ ih =>
      obtain ⟨ha, rfl⟩ := hab
      exact ⟨List.forall_mem_cons.mpr ⟨ha, ih.1⟩, congrArg _ ih.2⟩
  · rintro ⟨hp, rfl⟩
    exact List.forall₂_same.mpr fun a ha ↦ ⟨hp a ha, rfl⟩

/-- A step that fails on some elements and maps the others. -/
theorem mapM_guard_eq_ok {p : α → Prop} [DecidablePred p] {e : α → ε} {g : α → β} {l : List α} {r : List β} :
    l.mapM (fun a ↦ if p a then .error (e a) else .ok (g a)) = (.ok r : Except ε (List β)) ↔
      (∀ a ∈ l, ¬ p a) ∧ r = l.map g := by
  rw [mapM_eq_ok]
  constructor
  · intro hr
    induction hr with
    | nil => exact ⟨fun a ha ↦ absurd ha List.not_mem_nil, rfl⟩
    | @cons a b l r hab _ ih =>
      split at hab
      · cases hab
      · rename_i ha
        obtain rfl := Except.ok.inj hab
        exact ⟨List.forall_mem_cons.mpr ⟨ha, ih.1⟩, congrArg _ ih.2⟩
  · rintro ⟨hp, rfl⟩
    rw [List.forall₂_map_right_iff, List.forall₂_same]
    exact fun a ha ↦ if_neg (hp a ha)

end S8000.Foundation.Traversal
