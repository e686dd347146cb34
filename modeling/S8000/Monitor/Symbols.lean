import S8000.Monitor.Reassembly

namespace S8000.Monitor

open Foundation Foundation.Bytes Foundation.Assembly

section Definitions

variable {asm : Assembler}

theorem labelLocs_append (loc : ℕ) (lines lines' : List Line) (name : String) :
    labelLocs asm loc (lines ++ lines') name =
      labelLocs asm loc lines name ++ labelLocs asm (place (Line.size asm) loc lines) lines' name := by
  rw [labelLocs, located_append, List.filterMap_append]
  rfl

theorem labelLocs_eq_nil {loc : ℕ} {lines : List Line} {name : String} (h : ∀ line ∈ lines, line ≠ .label name) :
    labelLocs asm loc lines name = [] := by
  refine List.filterMap_eq_nil_iff.mpr fun p hp ↦ ?_
  exact if_neg (h p.2 (mem_of_mem_located _ hp))

theorem equValues_append (lines lines' : List Line) (name : String) :
    equValues (lines ++ lines') name = equValues lines name ++ equValues lines' name :=
  List.filterMap_append

theorem equValues_eq_nil {lines : List Line} {name : String} (h : ∀ line ∈ lines, ∀ n value, line ≠ .equ n value) :
    equValues lines name = [] := by
  refine List.filterMap_eq_nil_iff.mpr fun line hline ↦ ?_
  split
  · rename_i n value
    exact absurd rfl (h _ hline n value)
  · rfl

end Definitions

namespace Emitter

variable {asm : Assembler} {e : Emitter} {addr : ℕ}

section Stops

theorem le_of_mem_stops {lines : List Line} (h : e.emit addr = some lines) {a : ℕ} (ha : a ∈ e.stops addr) :
    addr ≤ a ∧ a < SIZE := by
  revert ha
  apply emit_induction ?stop ?turn h
  case stop =>
    intro addr hstop ha
    rw [stops_of_le hstop] at ha
    cases ha
  case turn =>
    intro addr t rest hlt ht _ ih ha
    rw [stops_of_turn hlt ht] at ha
    obtain rfl | ha := List.mem_cons.mp ha
    · exact ⟨le_rfl, hlt⟩
    · have hturn := turn_lt hlt ht
      exact ⟨hturn.le.trans (ih ha).1, (ih ha).2⟩

theorem nodup_stops {lines : List Line} (h : e.emit addr = some lines) : (e.stops addr).Nodup := by
  apply emit_induction ?stop ?turn h
  case stop =>
    intro addr hstop
    rw [stops_of_le hstop]
    exact List.nodup_nil
  case turn =>
    intro addr t rest hlt ht hrest ih
    rw [stops_of_turn hlt ht]
    refine List.nodup_cons.mpr ⟨fun hmem ↦ ?_, ih⟩
    have hturn := turn_lt hlt ht
    have hle := (le_of_mem_stops hrest hmem).1
    omega

/-- The address lies behind the first byte of something that is written as one. -/
def Inside (e : Emitter) (a : ℕ) : Prop := ∃ s ∈ e.stops 0, ∃ t, e.turn s = some t ∧ s < a ∧ a < t.2

theorem mem_stops_or_inside {lines : List Line} (h : e.emit addr = some lines) {a : ℕ} (hle : addr ≤ a)
    (ha : a < SIZE) : a ∈ e.stops addr ∨ ∃ s ∈ e.stops addr, ∃ t, e.turn s = some t ∧ s < a ∧ a < t.2 := by
  revert hle
  apply emit_induction ?stop ?turn h
  case stop =>
    intro addr hstop hle
    omega
  case turn =>
    intro addr t rest hlt ht _ ih hle
    rw [stops_of_turn hlt ht]
    obtain rfl | hbehind := Nat.eq_or_lt_of_le hle
    · exact .inl List.mem_cons_self
    · by_cases hnext : a < t.2
      · exact .inr ⟨addr, List.mem_cons_self, t, ht, hbehind, hnext⟩
      · obtain hmem | ⟨s, hs, t', ht', hin⟩ := ih (not_lt.mp hnext)
        · exact .inl (List.mem_cons_of_mem _ hmem)
        · exact .inr ⟨s, List.mem_cons_of_mem _ hs, t', ht', hin⟩

theorem not_inside_of_mem_stops {lines : List Line} (h : e.emit addr = some lines) {a s : ℕ}
    (ha : a ∈ e.stops addr) (hs : s ∈ e.stops addr) {t : List Line × ℕ} (ht : e.turn s = some t) :
    ¬ (s < a ∧ a < t.2) := by
  revert ha hs
  apply emit_induction ?stop ?turn h
  case stop =>
    intro addr hstop ha
    rw [stops_of_le hstop] at ha
    cases ha
  case turn =>
    intro addr t' rest hlt ht' hrest ih ha hs
    rw [stops_of_turn hlt ht'] at ha hs
    have hturn := turn_lt hlt ht'
    obtain rfl | ha' := List.mem_cons.mp ha
    · obtain rfl | hs' := List.mem_cons.mp hs
      · exact fun hin ↦ lt_irrefl _ hin.1
      · have hle := (le_of_mem_stops hrest hs').1
        omega
    · obtain rfl | hs' := List.mem_cons.mp hs
      · obtain rfl := Option.some.inj (ht.symm.trans ht')
        have hle := (le_of_mem_stops hrest ha').1
        omega
      · exact ih ha' hs'

/-- The loop stops at every address of the image that nothing covers. -/
theorem mem_stops_iff {lines : List Line} (h : e.emit 0 = some lines) (a : ℕ) :
    a ∈ e.stops 0 ↔ a < SIZE ∧ ¬ e.Inside a := by
  constructor
  · intro ha
    refine ⟨(le_of_mem_stops h ha).2, ?_⟩
    rintro ⟨s, hs, t, ht, hin⟩
    exact not_inside_of_mem_stops h ha hs ht hin
  · rintro ⟨ha, hin⟩
    exact (mem_stops_or_inside h (Nat.zero_le a) ha).resolve_right hin

end Stops

section Emitted

theorem labelLocs_labelLines (addr : ℕ) (name : String) :
    labelLocs asm addr (e.labelLines addr) name = if e.labels.get? addr = some name then [addr] else [] := by
  unfold labelLines
  split
  · rename_i n hn
    by_cases h : n = name
    · subst h
      simp [labelLocs, located, hn]
    · simp [labelLocs, located, hn, h]
  · rename_i hn
    simp [labelLocs, located, hn]

/-- The labels stand where the loop stops. -/
theorem labelLocs_emit {lines : List Line} (h : e.emit addr = some lines)
    (hsits : ∀ a ∈ e.stops addr, Sits asm e a) (name : String) :
    labelLocs asm addr lines name = (e.stops addr).filter fun a : ℕ ↦ e.labels.get? a = some name := by
  revert hsits
  apply emit_induction ?stop ?turn h
  case stop =>
    intro addr hstop _
    rw [stops_of_le hstop]
    rfl
  case turn =>
    intro addr t rest hlt ht hrest ih hsits
    rw [stops_of_turn hlt ht] at hsits ⊢
    have hturn : labelLocs asm addr t.1 name = [] := labelLocs_eq_nil fun line hline ↦ (turn_defines_nothing ht hline).1 name
    have hlater : labelLocs asm (place (Line.size asm) addr t.1) rest name =
        (e.stops t.2).filter fun a : ℕ ↦ e.labels.get? a = some name := by
      by_cases hnext : t.2 < SIZE
      · rw [hsits addr List.mem_cons_self t ht hnext]
        exact ih fun a ha ↦ hsits a (List.mem_cons_of_mem _ ha)
      · rw [emit_of_le (not_lt.mp hnext)] at hrest
        cases hrest
        rw [stops_of_le (not_lt.mp hnext)]
        rfl
    rw [labelLocs_append, labelLocs_append, place_append, labelLines_place, hturn, List.append_nil, hlater,
      labelLocs_labelLines, List.filter_cons]
    split <;> simp_all

theorem emit_equates_nothing {lines : List Line} (h : e.emit addr = some lines) {line : Line} (hline : line ∈ lines) :
    ∀ name value, line ≠ .equ name value := by
  revert hline
  apply emit_induction ?stop ?turn h
  case stop =>
    intro _ _ hline
    cases hline
  case turn =>
    intro addr t rest _ ht _ ih hline
    rcases List.mem_append.mp hline with hfirst | hlater
    · rcases List.mem_append.mp hfirst with hlabel | hturn
      · unfold labelLines at hlabel
        split at hlabel
        · obtain rfl := List.mem_singleton.mp hlabel
          exact fun name value hname ↦ by cases hname
        · cases hlabel
      · exact (turn_defines_nothing ht hturn).2
    · exact ih hlater

/-- The names that are used are those of the stops. -/
theorem mem_refs_emit {lines : List Line} (h : e.emit addr = some lines) {r : Ref} :
    (∃ line ∈ lines, r ∈ line.refs) ↔ ∃ a ∈ e.stops addr, r ∈ e.refs a := by
  apply emit_induction ?stop ?turn h
  case stop =>
    intro addr hstop
    rw [stops_of_le hstop]
    simp
  case turn =>
    intro addr t rest hlt ht _ ih
    have hlabel : ¬ ∃ line ∈ e.labelLines addr, r ∈ line.refs := by
      rintro ⟨line, hline, hr⟩
      unfold labelLines at hline
      split at hline
      · obtain rfl := List.mem_singleton.mp hline
        cases hr
      · cases hline
    rw [stops_of_turn hlt ht]
    simp only [List.mem_append, or_and_right, exists_or, List.mem_cons, exists_eq_left, ih, mem_refs ht]
    simp only [hlabel, false_or]

end Emitted

end Emitter

end S8000.Monitor
