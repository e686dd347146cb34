import S8000.Monitor.Names

namespace S8000.Monitor

open Foundation Foundation.Bytes Foundation.Assembly

namespace Emitter

variable {asm : Assembler} {e : Emitter}

section Strict

/-- The instruction at an address is written as this text. -/
def Shown (e : Emitter) (addr : ℕ) (text : Text) : Prop :=
  ∃ i, e.Writes addr i ∧ text = insnText i.mnem (e.operands addr i)

open Classical in
/-- An assembler that refuses an instruction of the listing unless its names have their values. -/
noncomputable def strict (asm : Assembler) (e : Emitter) : Assembler where
  size := asm.size
  encode table loc text :=
    if e.Shown loc text ∧ ¬ ∀ r ∈ e.refs loc, Resolved table r then none else asm.encode table loc text
  length_encode := by
    intro table loc text out h
    split at h
    · cases h
    · exact asm.length_encode h

theorem faithful_strict (h : Faithful asm e) : Faithful (strict asm e) e := by
  intro addr ha i hi
  obtain ⟨hsize, hencode⟩ := h addr ha i hi
  refine ⟨hsize, fun table hnames ↦ ?_⟩
  have hrefuse : ¬ (e.Shown addr (insnText i.mnem (e.operands addr i)) ∧ ¬ ∀ r ∈ e.refs addr, Resolved table r) :=
    fun hunresolved ↦ hunresolved.2 hnames
  exact (if_neg hrefuse).trans (hencode table hnames)

theorem valueBytes_singleton {table : Table} {v : Value} {out : List Byte} (h : valueBytes table [v] = some out) :
    ∃ w, v.word table = some w := by
  obtain ⟨w, hw, -⟩ := Option.bind_eq_some_iff.mp h
  exact ⟨w, hw⟩

/-- Under such an assembler the names of a turn that denotes something have values, and in an instruction
their own. -/
theorem resolved_of_output {addr : ℕ} {table : Table} {t : List Line × ℕ} {out : List Byte} (ht : e.turn addr = some t)
    (h : output (Line.size (strict asm e)) (Line.output (strict asm e) table) addr t.1 = some out) {r : Ref}
    (hr : r ∈ e.refs addr) : Resolved table r ∨ r.isLabel = true ∧ ∃ value, table r.name = some value := by
  cases turn_item ht with
  | insn hwrites fits =>
    refine .inl ?_
    by_contra hunresolved
    have hrefuse : e.Shown addr (insnText _ (e.operands addr _)) ∧ ¬ ∀ r ∈ e.refs addr, Resolved table r :=
      ⟨⟨_, hwrites, rfl⟩, fun hall ↦ hunresolved (hall r hr)⟩
    obtain ⟨first, hfirst, -⟩ := Option.bind_eq_some_iff.mp h
    cases (if_pos hrefuse).symm.trans hfirst
  | @pointer target hptr hread =>
    obtain ⟨first, hfirst, -⟩ := Option.bind_eq_some_iff.mp h
    obtain ⟨w, hw⟩ := valueBytes_singleton hfirst
    rw [refs_of_pointer hptr hread] at hr
    have hlabel : r.isLabel = true ∧ e.pointerValue target = .symbol r := by
      unfold pointerValue at hr ⊢
      split at hr
      · split at hr
        · rename_i hmem
          cases List.mem_singleton.mp hr
          simp [hmem]
        · cases hr
      · cases hr
    rw [hlabel.2] at hw
    obtain ⟨value, hvalue, -⟩ := Option.map_eq_some_iff.mp hw
    exact .inr ⟨hlabel.1, value, hvalue⟩
  | fill hfilled => simp [refs, hfilled] at hr
  | blank hblank => simp [refs, hblank] at hr
  | plain hrefs _ _ =>
    rw [hrefs] at hr
    cases hr

end Strict

section Main

theorem prepare_inputs {g : Inputs} (h : g.prepare = some e) : e.inputs = g := by
  unfold Inputs.prepare at h
  split at h
  · obtain ⟨kind, -, h⟩ := Option.bind_eq_some_iff.mp h
    obtain ⟨labels, -, rfl⟩ := Option.map_eq_some_iff.mp h
    rfl
  · cases h

theorem main_eq_some {g : Inputs} {lines : List Line} (he : g.prepare = some e) (h : g.main = some lines) :
    ∃ emitted, e.emit 0 = some emitted ∧ lines = e.inputs.equLines ++ emitted := by
  rw [Inputs.main, he, Option.bind_some] at h
  obtain ⟨emitted, hemit, rfl⟩ := Option.map_eq_some_iff.mp h
  exact ⟨emitted, hemit, by rw [prepare_inputs he]⟩

theorem sits_of_faithful {emitted : List Line} (hemit : e.emit 0 = some emitted) (hfill : e.FillsPad)
    (hblank : e.BlanksLast) (hasm : Faithful asm e) : ∀ a ∈ e.stops 0, Sits asm e a :=
  fun a ha ↦ sits hfill hblank (le_of_mem_stops hemit ha).2 (hasm a ha)

theorem output_equLines (g : Inputs) (table : Table) :
    output (Line.size asm) (Line.output asm table) 0 g.equLines = some [] ∧
      place (Line.size asm) 0 g.equLines = 0 := by
  rw [Inputs.equLines]
  generalize g.equates = l
  induction l with
  | nil => exact ⟨rfl, rfl⟩
  | cons c rest ih =>
    refine ⟨?_, ih.2⟩
    rw [List.map_cons, output_cons]
    exact (congrArg (Option.map ([] ++ ·)) ih.1).trans rfl

theorem mem_refs_source {emitted : List Line} (h : e.emit 0 = some emitted) {r : Ref} :
    (∃ line ∈ e.inputs.equLines ++ emitted, r ∈ line.refs) ↔ ∃ a ∈ e.stops 0, r ∈ e.refs a := by
  rw [← mem_refs_emit h]
  constructor
  · rintro ⟨line, hline, hr⟩
    rcases List.mem_append.mp hline with hequ | hemitted
    · obtain ⟨c, -, rfl⟩ := List.mem_map.mp hequ
      cases hr
    · exact ⟨line, hemitted, hr⟩
  · rintro ⟨line, hline, hr⟩
    exact ⟨line, List.mem_append_right _ hline, hr⟩

end Main

section Example

theorem words?_of_le {img : List Byte} {n a : ℕ} (h : a + 2 * n ≤ img.length) :
    ∃ words, words? img a n = some words := by
  induction n generalizing a with
  | zero => exact ⟨[], rfl⟩
  | succ n ih =>
    obtain ⟨words, hwords⟩ := @ih (a + 2) (by omega)
    have hpos : ¬ (a : ℤ) < 0 := Int.not_lt.mpr (Int.natCast_nonneg a)
    have hword : word? img a = some (word img[a] img[a + 1]) := by
      simp only [word?, if_neg hpos, Int.toNat_natCast]
      rw [List.drop_eq_getElem_cons (show a < img.length by omega),
        List.drop_eq_getElem_cons (show a + 1 < img.length by omega)]
    refine ⟨word img[a] img[a + 1] :: words, ?_⟩
    rw [words?, hword, Option.bind_some, show ((a : ℤ) + 2) = (a + 2 : ℕ) from rfl, hwords]
    rfl

/-- One instruction in front of erased memory. -/
theorem emit_single {i : Insn} (hwrites : e.Writes 0 i) (hblank : e.BlanksLast) (hlt : 2 * i.words < SIZE)
    (hkind : e.kind (2 * i.words) = .blank) :
    (∃ emitted, e.emit 0 = some emitted) ∧ e.stops 0 = [0, 2 * i.words] := by
  obtain ⟨words, hwords⟩ := @words?_of_le e.img i.words 0 (by rw [img, e.length_img]; omega)
  have hfirst : e.turn 0 = some ([.insn i.mnem (e.operands 0 i)], 2 * i.words) := by
    have hcode : e.inputs.code.get? ((0 : ℕ) : ℤ) = some i := hwrites.2.1
    simp only [turn, hwrites.1, hcode, if_neg hwrites.2.2, instruction, hwords, Option.map_some, Nat.zero_add]
  have hlast : e.turn (2 * i.words) = some ([.comment], SIZE) := by
    simp only [turn, hkind, blank, blank_stop hblank hlt hkind]
  have hzero : 0 < SIZE := by decide
  constructor
  · rw [emit_of_turn hzero hfirst, emit_of_turn hlt hlast, emit_of_le le_rfl]
    exact ⟨_, rfl⟩
  · rw [stops_of_turn hzero hfirst, stops_of_turn hlt hlast, stops_of_le le_rfl]

/-- An instruction that names an address, in front of erased memory. -/
def single (head : List Byte) (i : Insn) : Inputs where
  img := head ++ List.replicate (SIZE - head.length) 0xFF
  regions := [⟨head.length, SIZE, .blank, none⟩]
  escapes := []
  equates := []
  symbols := ∅
  pointers := []
  code := (∅ : Dict ℤ Insn).set 0 i

/-- What `main` makes of such an image. -/
structure Single (head : List Byte) (i : Insn) (before : Text) (t : ℕ) (e : Emitter) : Prop where
  prepared : (single head i).prepare = some e
  code : ∀ a, a < head.length → e.kind a = .code
  blank : ∀ a, head.length ≤ a → a < SIZE → e.kind a = .blank
  labels : e.labels = (∅ : Dict ℤ String).set t (labelName t)
  branch : i.branch = some (before, t)
  length : head.length = 2 * i.words
  lt : head.length < SIZE

theorem prepare_single {head : List Byte} {i : Insn} {kind : ℕ → Kind} {labels : Dict ℤ String}
    (hlt : head.length < SIZE) (hkind : (single head i).classify = some kind)
    (hlabels : (single head i).labels = some labels) :
    ∃ e, (single head i).prepare = some e ∧ e.kind = kind ∧ e.labels = labels := by
  have hlen : (single head i).img.length = SIZE := by
    rw [single, List.length_append, List.length_replicate]
    omega
  exact ⟨⟨single head i, kind, labels, hlen⟩, by rw [Inputs.prepare, dif_pos hlen, hkind, hlabels]; rfl, rfl, rfl⟩

namespace Single

variable {head : List Byte} {i : Insn} {before : Text} {t : ℕ}

theorem inputs_eq (h : Single head i before t e) : e.inputs = single head i := prepare_inputs h.prepared

theorem writes (h : Single head i before t e) : e.Writes 0 i := by
  have hpos := i.words_pos
  refine ⟨h.code 0 (by rw [h.length]; omega), ?_, ?_⟩
  · rw [h.inputs_eq]
    exact Dict.get?_set_self _ _ _
  · rw [h.inputs_eq]
    exact List.not_mem_nil

theorem pads (h : Single head i before t e) : e.FillsPad := by
  intro a ha hkind
  by_cases hlt : a < head.length
  · rw [h.code a hlt] at hkind
    cases hkind
  · rw [h.blank a (not_lt.mp hlt) ha] at hkind
    cases hkind

theorem last (h : Single head i before t e) : e.BlanksLast := by
  intro a ha hkind
  have hle : head.length ≤ a := by
    by_contra hlt
    rw [h.code a (not_le.mp hlt)] at hkind
    cases hkind
  constructor
  · rw [img, h.inputs_eq, single, List.getElem?_append_right hle, List.getElem?_replicate, if_pos (by omega)]
  · by_cases hend : a + 1 = SIZE
    · exact .inl hend
    · exact .inr (h.blank (a + 1) (by omega) (by omega))

theorem emitted (h : Single head i before t e) :
    (∃ emitted, e.emit 0 = some emitted) ∧ e.stops 0 = [0, 2 * i.words] :=
  emit_single h.writes h.last (h.length ▸ h.lt) (h.blank _ h.length.le (h.length ▸ h.lt))

theorem refs_zero (h : Single head i before t e) : e.refs 0 = [⟨labelName t, t, true⟩] := by
  have hget : e.labels.get? t = some (labelName t) := by rw [h.labels, Dict.get?_set_self]
  rw [refs_of_writes h.writes, operands, h.branch]
  simp only [hget]
  rfl

theorem refs_last (h : Single head i before t e) : e.refs (2 * i.words) = [] := by
  simp only [refs, h.blank _ h.length.le (h.length ▸ h.lt)]

theorem bytes_eq (h : Single head i before t e) : e.bytes 0 (0 + 2 * i.words) = head := by
  rw [bytes, img, h.inputs_eq, single, List.drop_zero, Nat.zero_add, Nat.sub_zero, ← h.length, List.take_left]

/-- An assembler that knows the instruction. -/
def assembler (head : List Byte) : Assembler where
  size _ := head.length
  encode _ _ _ := some head
  length_encode h := by
    cases h
    rfl

theorem faithful (h : Single head i before t e) : Faithful (assembler head) e := by
  intro addr ha j hj
  rw [h.emitted.2] at ha
  obtain rfl | ha := List.mem_cons.mp ha
  · obtain rfl := Option.some.inj (h.writes.2.1.symm.trans hj.2.1)
    exact ⟨h.length, fun table _ ↦ by rw [h.bytes_eq]; rfl⟩
  · obtain rfl := List.mem_singleton.mp ha
    have hkind := hj.1
    rw [h.blank _ h.length.le (h.length ▸ h.lt)] at hkind
    cases hkind

end Single

def loop : Insn := ⟨1, "jr", ['t', ',', '0', 'x', '0'], by decide⟩

theorem single_loop : ∃ e, Single [0xE8, 0xFF] loop ['t', ','] 0 e := by
  obtain ⟨kind, hkind, hcode, hblank⟩ : ∃ kind, (single [0xE8, 0xFF] loop).classify = some kind ∧
      (∀ a, a < 2 → kind a = .code) ∧ ∀ a, 2 ≤ a → a < SIZE → kind a = .blank := by
    refine ⟨_, rfl, fun a ha ↦ if_pos ?_, fun a ha hlt ↦ (if_neg ?_).trans (if_pos ?_)⟩
    · simp only [loop, Insn.length]
      omega
    · simp only [loop, Insn.length]
      omega
    · simp only [List.length_cons, List.length_nil]
      omega
  obtain ⟨e, he, rfl, hlabels⟩ := prepare_single (by decide) hkind rfl
  exact ⟨e, he, hcode, hblank, hlabels, rfl, rfl, by decide⟩

/-- The instruction calls its own second word. -/
def call : Insn := ⟨2, "call", ['0', 'x', '2'], by decide⟩

theorem single_call : ∃ e, Single [0x5F, 0, 0, 2] call [] 2 e := by
  obtain ⟨kind, hkind, hcode, hblank⟩ : ∃ kind, (single [0x5F, 0, 0, 2] call).classify = some kind ∧
      (∀ a, a < 4 → kind a = .code) ∧ ∀ a, 4 ≤ a → a < SIZE → kind a = .blank := by
    refine ⟨_, rfl, fun a ha ↦ if_pos ?_, fun a ha hlt ↦ (if_neg ?_).trans (if_pos ?_)⟩
    · simp only [call, Insn.length]
      omega
    · simp only [call, Insn.length]
      omega
    · simp only [List.length_cons, List.length_nil]
      omega
  obtain ⟨e, he, rfl, hlabels⟩ := prepare_single (by decide) hkind rfl
  exact ⟨e, he, hcode, hblank, hlabels, rfl, rfl, by decide⟩

theorem main_single {head : List Byte} {i : Insn} {before : Text} {t : ℕ} (h : Single head i before t e) :
    ∃ emitted, e.emit 0 = some emitted ∧ (single head i).main = some (e.inputs.equLines ++ emitted) := by
  obtain ⟨emitted, hemit⟩ := h.emitted.1
  refine ⟨emitted, hemit, ?_⟩
  rw [Inputs.main, h.prepared, Option.bind_some, hemit, h.inputs_eq]
  rfl

end Example

end Emitter

end S8000.Monitor
