import Mathlib.Data.List.Basic

namespace S8000.Foundation.Assembly

section Layout

variable {L : Type} (size : ℕ → L → ℕ)

/-- The location behind some lines; a line's size may depend on where it stands. -/
def place (loc : ℕ) (lines : List L) : ℕ := lines.foldl (fun loc line ↦ loc + size loc line) loc

/-- Every line with its location. -/
def located (loc : ℕ) : List L → List (ℕ × L)
  | [] => []
  | line :: rest => (loc, line) :: located (loc + size loc line) rest

@[simp] theorem place_nil (loc : ℕ) : place size loc [] = loc := rfl

@[simp] theorem place_cons (loc : ℕ) (line : L) (rest : List L) :
    place size loc (line :: rest) = place size (loc + size loc line) rest := rfl

theorem place_append (loc : ℕ) (lines lines' : List L) :
    place size loc (lines ++ lines') = place size (place size loc lines) lines' :=
  List.foldl_append

theorem located_append (loc : ℕ) (lines lines' : List L) :
    located size loc (lines ++ lines') = located size loc lines ++ located size (place size loc lines) lines' := by
  induction lines generalizing loc with
  | nil => rfl
  | cons line rest ih => simp [located, ih]

theorem mem_of_mem_located {loc : ℕ} {lines : List L} {p : ℕ × L} (h : p ∈ located size loc lines) :
    p.2 ∈ lines := by
  induction lines generalizing loc with
  | nil => cases h
  | cons line rest ih =>
    obtain rfl | h := List.mem_cons.mp h
    · exact List.mem_cons_self
    · exact List.mem_cons_of_mem _ (ih h)

end Layout

section Output

variable {L β : Type} (size : ℕ → L → ℕ) (emit : ℕ → L → Option (List β))

/-- What lines denote one after another, unless one of them denotes nothing. -/
def output (loc : ℕ) : List L → Option (List β)
  | [] => some []
  | line :: rest => (emit loc line).bind fun out ↦ (output (loc + size loc line) rest).map (out ++ ·)

@[simp] theorem output_nil (loc : ℕ) : output size emit loc [] = some [] := rfl

theorem output_cons (loc : ℕ) (line : L) (rest : List L) :
    output size emit loc (line :: rest) =
      (emit loc line).bind fun out ↦ (output size emit (loc + size loc line) rest).map (out ++ ·) :=
  rfl

theorem output_append (loc : ℕ) (lines lines' : List L) :
    output size emit loc (lines ++ lines') =
      (output size emit loc lines).bind fun out ↦
        (output size emit (place size loc lines) lines').map (out ++ ·) := by
  induction lines generalizing loc with
  | nil => simp
  | cons line rest ih =>
    rw [List.cons_append, output_cons, output_cons, ih, Option.bind_assoc, place_cons]
    congr 1
    funext out
    cases output size emit (loc + size loc line) rest with
    | none => rfl
    | some out' => simp [Function.comp_def]

variable {size emit}

theorem output_append_some {loc : ℕ} {lines lines' : List L} {out out' : List β}
    (h : output size emit loc lines = some out)
    (h' : output size emit (place size loc lines) lines' = some out') :
    output size emit loc (lines ++ lines') = some (out ++ out') := by
  rw [output_append, h, h']
  rfl

theorem of_output_append {loc : ℕ} {lines lines' : List L} {all : List β}
    (h : output size emit loc (lines ++ lines') = some all) :
    ∃ out out', output size emit loc lines = some out ∧
      output size emit (place size loc lines) lines' = some out' ∧ all = out ++ out' := by
  rw [output_append] at h
  obtain ⟨out, hout, h⟩ := Option.bind_eq_some_iff.mp h
  obtain ⟨out', hout', h⟩ := Option.map_eq_some_iff.mp h
  exact ⟨out, out', hout, hout', h.symm⟩

theorem output_singleton {loc : ℕ} {line : L} {out : List β} (h : emit loc line = some out) :
    output size emit loc [line] = some out := by
  simp [output_cons, h]

/-- If every line denotes bytes, the bytes are as many as the places say. -/
theorem place_eq {loc : ℕ} {lines : List L} {out : List β}
    (hsize : ∀ loc line out, emit loc line = some out → out.length = size loc line)
    (h : output size emit loc lines = some out) : place size loc lines = loc + out.length := by
  induction lines generalizing loc out with
  | nil =>
    cases h
    rfl
  | cons line rest ih =>
    obtain ⟨first, hfirst, h⟩ := Option.bind_eq_some_iff.mp h
    obtain ⟨later, hlater, rfl⟩ := Option.map_eq_some_iff.mp h
    rw [place_cons, ih hlater, List.length_append, hsize _ _ _ hfirst, Nat.add_assoc]

end Output

end S8000.Foundation.Assembly
