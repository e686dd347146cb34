import S8000.Foundation.Assembly
import S8000.Monitor.Emit

namespace S8000.Monitor

open Foundation Foundation.Bytes Foundation.Assembly

section Source

def rstrip (t : Text) : Text := (t.reverse.dropWhile isSpace).reverse

/-- The line of an instruction. -/
def insnText (mnem : String) (ops : List Piece) : Text :=
  rstrip ('\t' :: mnem.toList ++ '\t' :: ops.flatMap Piece.render)

def Value.refs : Value → List Ref
  | lit _ => []
  | symbol r => [r]

/-- The names that a line uses. -/
def Line.refs : Line → List Ref
  | insn _ ops => ops.filterMap Piece.ref
  | word values => values.flatMap Value.refs
  | _ => []

end Source

section Assembler

abbrev Table := String → Option ℕ

/-- The size of an instruction is known before the symbols are. -/
structure Assembler where
  size : Text → ℕ
  encode : Table → ℕ → Text → Option (List Byte)
  length_encode : ∀ {table loc text out}, encode table loc text = some out → out.length = size text

variable (asm : Assembler) (table : Table)

def wordBytes (w : Word) : List Byte := [high w, low w]

def Line.size (loc : ℕ) : Line → ℕ
  | insn mnem ops => asm.size (insnText mnem ops)
  | word values => 2 * values.length
  | byte values => values.length
  | ascii run => run.length
  | balign => (256 - loc % 256) % 256
  | _ => 0

def Value.word : Value → Option Word
  | lit w => some w
  | symbol r => (table r.name).map (BitVec.ofNat 16)

def valueBytes : List Value → Option (List Byte)
  | [] => some []
  | v :: rest => (v.word table).bind fun w ↦ (valueBytes rest).map (wordBytes w ++ ·)

/-- The bytes that a line denotes at its location. -/
def Line.output (loc : ℕ) : Line → Option (List Byte)
  | insn mnem ops => asm.encode table loc (insnText mnem ops)
  | word values => valueBytes table values
  | byte values => some values
  | ascii run => some run
  | balign => some (List.replicate ((256 - loc % 256) % 256) 0)
  | _ => some []

/-- The locations of a label. -/
def labelLocs (loc : ℕ) (lines : List Line) (name : String) : List ℕ :=
  (located (Line.size asm) loc lines).filterMap fun p ↦ if p.2 = .label name then some p.1 else none

/-- The values that a name is equated with. -/
def equValues (lines : List Line) (name : String) : List ℕ :=
  lines.filterMap fun line ↦
    match line with
    | .equ n value => if n = name then some value else none
    | _ => none

/-- A later `.equ` replaces an earlier one; a label must be the only definition of its name. -/
def symbolTable (lines : List Line) : Table := fun name ↦
  match labelLocs asm 0 lines name, equValues lines name with
  | [], values => values.getLast?
  | [loc], [] => some loc
  | _, _ => none

/-- The source denotes the image, and the labels that it uses are where they should be. -/
structure Reassembles (img : List Byte) (lines : List Line) : Prop where
  bytes : ∃ out, output (Line.size asm) (Line.output asm (symbolTable asm lines)) 0 lines = some out ∧
    out ++ List.replicate (SIZE - out.length) 0xFF = img
  labels : ∀ line ∈ lines, ∀ r ∈ line.refs, r.isLabel → labelLocs asm 0 lines r.name = [r.value]

end Assembler

section Sizes

variable {asm : Assembler} {table : Table}

theorem length_valueBytes {values : List Value} {out : List Byte} (h : valueBytes table values = some out) :
    out.length = 2 * values.length := by
  induction values generalizing out with
  | nil =>
    cases h
    rfl
  | cons v rest ih =>
    obtain ⟨w, -, h⟩ := Option.bind_eq_some_iff.mp h
    obtain ⟨out', hrest, rfl⟩ := Option.map_eq_some_iff.mp h
    have hlen := ih hrest
    simp only [wordBytes, List.length_append, List.length_cons, List.length_nil]
    omega

theorem length_output {loc : ℕ} {line : Line} {out : List Byte} (h : line.output asm table loc = some out) :
    out.length = line.size asm loc := by
  cases line with
  | insn mnem ops => exact asm.length_encode h
  | word values => exact length_valueBytes h
  | balign =>
    cases h
    exact List.length_replicate
  | _ =>
    cases h
    rfl

theorem valueBytes_lit (words : List Word) :
    valueBytes table (words.map .lit) = some (words.flatMap wordBytes) := by
  induction words with
  | nil => rfl
  | cons w rest ih => simp [valueBytes, Value.word, ih]

end Sizes

section Ascii

variable {asm : Assembler} {table : Table}

theorem asciiRun_output (loc : ℕ) (run : List Byte) :
    output (Line.size asm) (Line.output asm table) loc (asciiRun run) = some run := by
  unfold asciiRun
  split
  · rename_i h
    rw [h, output_nil]
  · exact output_singleton rfl

theorem asciiRuns_output (loc : ℕ) (run data : List Byte) :
    output (Line.size asm) (Line.output asm table) loc (asciiRuns run data) = some (run ++ data) := by
  induction data generalizing loc run with
  | nil => rw [asciiRuns, asciiRun_output, List.append_nil]
  | cons b rest ih =>
    rw [asciiRuns]
    split
    · rw [ih, List.append_assoc, List.singleton_append]
    · refine output_append_some (asciiRun_output loc run) ?_
      rw [output_cons, ih]
      rfl

/-- Text is shown as the bytes it is. -/
theorem asciiLines_output (loc : ℕ) (data : List Byte) :
    output (Line.size asm) (Line.output asm table) loc (asciiLines data) = some data := by
  have hruns : output (Line.size asm) (Line.output asm table) loc (asciiRuns [] data) = some data :=
    asciiRuns_output loc [] data
  unfold asciiLines
  split
  · rename_i h
    rw [h, output_nil] at hruns
    rw [← Option.some.inj hruns]
    exact output_singleton rfl
  · exact hruns

/-- The lines that show text use no name and define none. -/
theorem asciiLines_cases {data : List Byte} {line : Line} (h : line ∈ asciiLines data) :
    line = .comment ∨ (∃ b, line = .byte b) ∨ ∃ run, line = .ascii run := by
  have hrun : ∀ run, line ∈ asciiRun run → ∃ run, line = .ascii run := by
    intro run hline
    unfold asciiRun at hline
    split at hline
    · cases hline
    · exact ⟨run, List.mem_singleton.mp hline⟩
  have hruns : ∀ run, line ∈ asciiRuns run data → (∃ b, line = .byte b) ∨ ∃ run, line = .ascii run := by
    clear h
    induction data with
    | nil => exact fun run hline ↦ .inr (hrun run hline)
    | cons b rest ih =>
      intro run hline
      rw [asciiRuns] at hline
      split at hline
      · exact ih _ hline
      · obtain hline | hline := List.mem_append.mp hline
        · exact .inr (hrun run hline)
        · obtain rfl | hline := List.mem_cons.mp hline
          · exact .inl ⟨_, rfl⟩
          · exact ih _ hline
  unfold asciiLines at h
  split at h
  · exact .inl (List.mem_singleton.mp h)
  · exact .inr (hruns [] h)

end Ascii

end S8000.Monitor
