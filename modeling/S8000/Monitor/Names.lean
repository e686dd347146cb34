import S8000.Monitor.Symbols

namespace S8000.Monitor

open Foundation Foundation.Bytes Foundation.Assembly

namespace Emitter

variable {asm : Assembler} {e : Emitter} {addr : ℕ}

section Names

/-- A name comes from the label of its address or from an equate of its value. -/
def Known (e : Emitter) (r : Ref) : Prop :=
  r.isLabel = true ∧ e.labels.get? r.value = some r.name ∨ r.isLabel = false ∧ (r.name, r.value) ∈ e.inputs.equates

theorem mem_equates_of_equ {value : ℕ} {name : String} (h : e.equ.get? value = some name) :
    (name, value) ∈ e.inputs.equates := by
  have hfold : ∀ (l : List (String × ℕ)) (d : Dict ℕ String),
      (l.foldl (fun d c ↦ d.set c.2 c.1) d).get? value = some name → d.get? value = some name ∨ (name, value) ∈ l := by
    intro l
    induction l with
    | nil => exact fun d hd ↦ .inl hd
    | cons c rest ih =>
      intro d hd
      obtain hd | hmem := ih _ hd
      · rw [Dict.get?_set] at hd
        split at hd
        · rename_i hvalue
          cases hd
          exact .inr (hvalue ▸ List.mem_cons_self)
        · exact .inl hd
      · exact .inr (List.mem_cons_of_mem _ hmem)
  exact (hfold _ _ h).resolve_left (by simp)

theorem declaredLabel_eq_some {labels : Dict ℤ String} {allowed : List ℤ} {value : ℕ} {name : String}
    (h : declaredLabel labels allowed value = some name) : labels.get? value = some name := by
  unfold declaredLabel at h
  split at h
  · exact h
  · cases h

theorem known_repl {allowed : List ℤ} {digits : Text} {r : Ref}
    (h : Piece.symbol r ∈ repl e.equ e.labels allowed digits) : e.Known r := by
  unfold repl at h
  dsimp only at h
  split at h
  · rename_i hequ
    cases List.mem_singleton.mp h
    exact .inr ⟨rfl, mem_equates_of_equ hequ⟩
  · split at h
    · rename_i hlabel
      cases List.mem_singleton.mp h
      exact .inl ⟨rfl, declaredLabel_eq_some hlabel⟩
    · split at h
      · rename_i hlabel
        simp only [List.mem_cons, List.not_mem_nil, or_false, reduceCtorEq, Piece.symbol.injEq] at h
        subst h
        exact .inl ⟨rfl, declaredLabel_eq_some hlabel⟩
      · simp at h

theorem known_substitute {allowed : List ℤ} {ops : Text} {r : Ref}
    (h : Piece.symbol r ∈ substitute e.equ e.labels allowed ops) : e.Known r := by
  induction ops using substitute.induct with
  | case1 =>
    rw [substitute] at h
    cases h
  | case2 c rest hash digits rest' hmatch ih =>
    rw [substitute] at h
    split at h
    · rename_i h'
      cases hmatch.symm.trans h'
      simp only [List.mem_cons, reduceCtorEq, List.mem_append, false_or] at h
      exact h.elim known_repl ih
    · rename_i h'
      cases hmatch.symm.trans h'
  | case3 c rest hmatch ih =>
    rw [substitute] at h
    split at h
    · rename_i h'
      cases hmatch.symm.trans h'
    · exact ih ((List.mem_cons.mp h).resolve_left (by simp))

theorem known_operands {i : Insn} {r : Ref} (h : Piece.symbol r ∈ e.operands addr i) : e.Known r := by
  unfold operands at h
  split at h
  · split at h
    · rename_i hlabel
      simp only [List.mem_cons, reduceCtorEq, List.not_mem_nil, or_false, Piece.symbol.injEq, false_or] at h
      subst h
      exact .inl ⟨rfl, hlabel⟩
    · exact known_substitute h
  · exact known_substitute h

theorem known_pointerValue {target : Word} {r : Ref} (h : r ∈ (e.pointerValue target).refs) : e.Known r := by
  unfold pointerValue at h
  split at h
  · rename_i hlabel
    split at h
    · cases List.mem_singleton.mp h
      exact .inl ⟨rfl, hlabel⟩
    · cases h
  · cases h

theorem known_refs {r : Ref} (h : r ∈ e.refs addr) : e.Known r := by
  unfold refs at h
  split at h
  · split at h
    · split at h
      · cases h
      · obtain ⟨piece, hpiece, href⟩ := List.mem_filterMap.mp h
        cases piece with
        | text t => cases href
        | symbol s =>
          cases href
          exact known_operands hpiece
    · cases h
  · split at h
    · exact known_pointerValue h
    · cases h
  · cases h

end Names

section Stands

/-- The label is written, at its own address only, and no equate has its name. -/
structure LabelStands (e : Emitter) (r : Ref) : Prop where
  lt : r.value < SIZE
  bare : ¬ e.Inside r.value
  alone : ∀ a ∈ e.stops 0, e.labels.get? a = some r.name → a = r.value
  unequated : ∀ value, (r.name, value) ∉ e.inputs.equates

/-- The last equate of the name gives the value, and no label of the name is written. -/
structure EquStands (e : Emitter) (r : Ref) : Prop where
  last : ((e.inputs.equates.filter (·.1 = r.name)).map Prod.snd).getLast? = some r.value
  unlabelled : ∀ a ∈ e.stops 0, e.labels.get? a ≠ some r.name

def Stands (e : Emitter) (r : Ref) : Prop := if r.isLabel then e.LabelStands r else e.EquStands r

theorem equValues_equLines (g : Inputs) (name : String) :
    equValues g.equLines name = (g.equates.filter (·.1 = name)).map Prod.snd := by
  rw [Inputs.equLines]
  generalize g.equates = l
  induction l with
  | nil => rfl
  | cons c rest ih =>
    rw [List.map_cons, equValues, List.filterMap_cons, List.filter_cons]
    by_cases h : c.1 = name
    · simp only [h, ↓reduceIte, decide_true, List.map_cons, ← ih]
      rfl
    · simp only [h, ↓reduceIte, decide_false, Bool.false_eq_true, ← ih]
      rfl

/-- The stops at which a label of this name is written. -/
def labelled (e : Emitter) (name : String) : List ℕ := (e.stops 0).filter fun a : ℕ ↦ e.labels.get? a = some name

theorem labelled_eq_singleton {lines : List Line} (h : e.emit 0 = some lines) {r : Ref}
    (hlabel : e.labels.get? r.value = some r.name) :
    e.labelled r.name = [r.value] ↔
      r.value ∈ e.stops 0 ∧ ∀ a ∈ e.stops 0, e.labels.get? a = some r.name → a = r.value := by
  constructor
  · intro hone
    have hmem : ∀ a, a ∈ e.labelled r.name ↔ a = r.value := fun a ↦ by rw [hone, List.mem_singleton]
    simp only [labelled, List.mem_filter, decide_eq_true_eq] at hmem
    exact ⟨((hmem _).mpr rfl).1, fun a ha hname ↦ (hmem a).mp ⟨ha, hname⟩⟩
  · rintro ⟨hstop, halone⟩
    have hmem : r.value ∈ e.labelled r.name := List.mem_filter.mpr ⟨hstop, decide_eq_true hlabel⟩
    have hall : ∀ a ∈ e.labelled r.name, a = r.value := by
      intro a ha
      obtain ⟨ha, hname⟩ := List.mem_filter.mp ha
      exact halone a ha (of_decide_eq_true hname)
    have hnodup : (e.labelled r.name).Nodup := (nodup_stops h).filter _
    rw [List.eq_replicate_of_mem hall] at hnodup hmem ⊢
    have hlen := List.nodup_replicate.mp hnodup
    have hpos : (e.labelled r.name).length ≠ 0 := fun hzero ↦ by simp [hzero] at hmem
    rw [show (e.labelled r.name).length = 1 by omega]
    rfl

variable {lines : List Line}

theorem labelLocs_source (h : e.emit 0 = some lines) (hsits : ∀ a ∈ e.stops 0, Sits asm e a) (name : String) :
    labelLocs asm 0 (e.inputs.equLines ++ lines) name = e.labelled name := by
  have hnone : labelLocs asm 0 e.inputs.equLines name = [] := by
    refine labelLocs_eq_nil fun line hline ↦ ?_
    obtain ⟨c, -, rfl⟩ := List.mem_map.mp hline
    simp
  have hplace : place (Line.size asm) 0 e.inputs.equLines = 0 := by
    rw [Inputs.equLines]
    generalize e.inputs.equates = l
    induction l with
    | nil => rfl
    | cons c rest ih => exact ih
  rw [labelLocs_append, hnone, hplace, labelLocs_emit h hsits]
  rfl

theorem equValues_source (h : e.emit 0 = some lines) (name : String) :
    equValues (e.inputs.equLines ++ lines) name = (e.inputs.equates.filter (·.1 = name)).map Prod.snd := by
  rw [equValues_append, equValues_equLines, equValues_eq_nil fun line hline ↦ emit_equates_nothing h hline,
    List.append_nil]

/-- A name has its value, and a label its place, just when it stands. -/
theorem stands_iff (h : e.emit 0 = some lines) (hsits : ∀ a ∈ e.stops 0, Sits asm e a) {r : Ref} (hr : e.Known r) :
    e.Stands r ↔ Resolved (symbolTable asm (e.inputs.equLines ++ lines)) r ∧
      (r.isLabel → labelLocs asm 0 (e.inputs.equLines ++ lines) r.name = [r.value]) := by
  have hequ : (e.inputs.equates.filter (·.1 = r.name)).map Prod.snd = [] ↔
      ∀ value, (r.name, value) ∉ e.inputs.equates := by
    simp [List.filter_eq_nil_iff]
    grind
  simp only [Stands, Resolved, symbolTable, labelLocs_source h hsits, equValues_source h]
  obtain ⟨hisLabel, hlabel⟩ | ⟨hisLabel, hmem⟩ := hr
  · rw [if_pos hisLabel]
    constructor
    · intro hs
      have hone := (labelled_eq_singleton h hlabel).mpr ⟨(mem_stops_iff h _).mpr ⟨hs.lt, hs.bare⟩, hs.alone⟩
      rw [hone, hequ.mpr hs.unequated]
      exact ⟨rfl, fun _ ↦ rfl⟩
    · rintro ⟨hvalue, hone⟩
      have hone := hone hisLabel
      obtain ⟨hstop, halone⟩ := (labelled_eq_singleton h hlabel).mp hone
      obtain ⟨hlt, hbare⟩ := (mem_stops_iff h _).mp hstop
      refine ⟨hlt, hbare, halone, hequ.mp ?_⟩
      rw [hone] at hvalue
      split at hvalue
      · rename_i hnil
        cases hnil
      · assumption
      · cases hvalue
  · rw [if_neg (by simp [hisLabel])]
    constructor
    · intro hs
      have hnone : e.labelled r.name = [] := by
        refine List.filter_eq_nil_iff.mpr fun a ha ↦ ?_
        simpa using hs.unlabelled a ha
      rw [hnone]
      exact ⟨hs.last, fun hlabel ↦ by simp [hisLabel] at hlabel⟩
    · rintro ⟨hvalue, -⟩
      split at hvalue
      · rename_i hnil
        refine ⟨hvalue, fun a ha hname ↦ ?_⟩
        have hmem' : a ∈ e.labelled r.name := List.mem_filter.mpr ⟨ha, decide_eq_true hname⟩
        rw [hnil] at hmem'
        cases hmem'
      · rename_i hnil
        exact absurd hmem (hequ.mp hnil r.value)
      · cases hvalue

end Stands

end Emitter

end S8000.Monitor
