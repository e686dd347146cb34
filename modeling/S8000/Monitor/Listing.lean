import S8000.Foundation.Bytes
import S8000.Monitor.Disasm

namespace S8000.Monitor

open Foundation Foundation.Bytes

def SIZE : ℕ := 0x4000

section Inputs

inductive Kind
  | code | ptr | word | byte | string | msg | fill | blank
  | other (name : String)
deriving DecidableEq

/-- `start end kind [name]`. -/
structure Region where
  start : ℤ
  stop : ℤ
  kind : Kind
  name : Option String

/-- The image and what the annotation files say about it. -/
structure Inputs where
  img : List Byte
  regions : List Region
  escapes : List ℤ
  equates : List (String × ℕ)
  symbols : Dict ℤ String
  pointers : List (ℤ × ℤ)
  code : Dict ℤ Insn

/-- `struct.unpack_from(">H", img, a)[0]`. -/
def word? (img : List Byte) (a : ℤ) : Option Word :=
  let a := if a < 0 then a + img.length else a
  if a < 0 then none
  else
    match img.drop a.toNat with
    | h :: l :: _ => some (word h l)
    | _ => none

/-- The words at `a`, `a + 2`, ... -/
def words? (img : List Byte) (a : ℤ) : ℕ → Option (List Word)
  | 0 => some []
  | n + 1 => (word? img a).bind fun w ↦ (words? img (a + 2) n).map (w :: ·)

end Inputs

section Classify

/-- The entry that an index into a list of `SIZE` entries selects. -/
def index (i : ℤ) : Option ℕ :=
  if 0 ≤ i ∧ i < SIZE then some i.toNat else if -SIZE ≤ i ∧ i < 0 then some (i + SIZE).toNat else none

/-- `for a in range(start, stop): kind[a] = k`. -/
def paint (kind : ℕ → Kind) (k : Kind) (start stop : ℤ) : Option (ℕ → Kind) :=
  if start < stop ∧ (start < -SIZE ∨ SIZE < stop) then none
  else
    some fun i ↦
      if start ≤ i ∧ i < stop ∨ start ≤ (i : ℤ) - SIZE ∧ (i : ℤ) - SIZE < stop then k else kind i

def paintRegions (kind : ℕ → Kind) : List Region → Option (ℕ → Kind)
  | [] => some kind
  | r :: rest => (paint kind r.kind r.start r.stop).bind (paintRegions · rest)

/-- `all(kind[a] == "word" for a in range(a, a + n))`. -/
def allWord (kind : ℕ → Kind) (a : ℤ) : ℕ → Option Bool
  | 0 => some true
  | n + 1 => (index a).bind fun i ↦ if kind i = .word then allWord kind (a + 1) n else some false

/-- An instruction takes its bytes if the regions say nothing about any of them. -/
def claimCode (kind : ℕ → Kind) : List (ℤ × Insn) → Option (ℕ → Kind)
  | [] => some kind
  | (addr, i) :: rest =>
    match allWord kind addr i.length.toNat with
    | none => none
    | some false => claimCode kind rest
    | some true => (paint kind .code addr (addr + i.length)).bind (claimCode · rest)

/-- What every byte of the image is. -/
def Inputs.classify (g : Inputs) : Option (ℕ → Kind) :=
  (paintRegions (fun _ ↦ .word) g.regions).bind (claimCode · g.code.items)

end Classify

section Labels

/-- `{n:04x}`. -/
def hex4 (n : ℤ) : String :=
  let digits := Nat.toDigits 16 n.natAbs
  if n < 0 then String.ofList ('-' :: (List.replicate (3 - digits.length) '0' ++ digits))
  else String.ofList (List.replicate (4 - digits.length) '0' ++ digits)

def labelName (addr : ℤ) : String := "L_" ++ hex4 addr

/-- The mnemonics whose operand an assembler can resolve from a symbol. -/
def targetMnemonics : List String := ["jr", "jp", "call", "calr", "djnz", "dbjnz", "ldar"]

/-- The operands up to the target, and the target, of an instruction that names one. -/
def Insn.branch (i : Insn) : Option (Text × ℕ) :=
  if i.mnem ∈ targetMnemonics then searchTarget i.ops else none

def branchLabels (labels : Dict ℤ String) : List (ℤ × Insn) → Dict ℤ String
  | [] => labels
  | (_, i) :: rest =>
    match i.branch with
    | some (_, t) => branchLabels (if t < SIZE then labels.setdefault t (labelName t) else labels) rest
    | none => branchLabels labels rest

/-- The address falls inside an instruction. -/
def Inputs.interior (g : Inputs) (a : ℤ) : Bool := g.code.items.any fun c ↦ c.1 < a ∧ a < c.1 + c.2.length

def Inputs.pointerLabels (g : Inputs) (labels : Dict ℤ String) : List (ℤ × ℤ) → Dict ℤ String
  | [] => labels
  | (_, value) :: rest =>
    g.pointerLabels
      (if value < SIZE ∧ ¬ g.interior value then labels.setdefault value (labelName value) else labels) rest

/-- The words of a table of pointers. -/
def Inputs.tableLabels (g : Inputs) (labels : Dict ℤ String) (a : ℤ) : ℕ → Option (Dict ℤ String)
  | 0 => some labels
  | n + 1 =>
    (word? g.img a).bind fun target ↦
      g.tableLabels
        (if (target.toNat : ℤ) ∈ g.code then labels.setdefault target.toNat (labelName target.toNat) else labels)
        (a + 2) n

def Inputs.ptrLabels (g : Inputs) (labels : Dict ℤ String) : List Region → Option (Dict ℤ String)
  | [] => some labels
  | r :: rest =>
    if r.kind = .ptr then
      (g.tableLabels labels r.start ((r.stop - r.start + 1) / 2).toNat).bind (g.ptrLabels · rest)
    else g.ptrLabels labels rest

def regionLabels (labels : Dict ℤ String) : List Region → Dict ℤ String
  | [] => labels
  | r :: rest =>
    match r.name with
    | some name => regionLabels (if name = "" then labels else labels.set r.start name) rest
    | none => regionLabels labels rest

/-- `labels.update(symbols)`. -/
def symbolLabels (labels : Dict ℤ String) : List (ℤ × String) → Dict ℤ String
  | [] => labels
  | (addr, name) :: rest => symbolLabels (labels.set addr name) rest

/-- Branch targets, pointers, region names and the symbols given by hand, the last of them first. -/
def Inputs.labels (g : Inputs) : Option (Dict ℤ String) :=
  (g.ptrLabels (g.pointerLabels (branchLabels ∅ g.code.items) g.pointers) g.regions).map fun labels ↦
    symbolLabels (regionLabels labels g.regions) g.symbols.items

end Labels

section Operands

/-- A name in place of a number: `isLabel` tells a label from an equate. -/
structure Ref where
  name : String
  value : ℕ
  isLabel : Bool
deriving DecidableEq

inductive Piece
  | text (t : Text)
  | symbol (r : Ref)
deriving DecidableEq

def Piece.render : Piece → Text
  | text t => t
  | symbol r => r.name.toList

def Piece.ref : Piece → Option Ref
  | text _ => none
  | symbol r => some r

/-- The match of `(#?)0x([0-9a-f]+)` that begins here, and the text behind it. -/
def hexNum : Text → Option (Text × Text × Text)
  | '#' :: '0' :: 'x' :: rest =>
    if rest.takeWhile isHex = [] then none else some (['#'], rest.takeWhile isHex, rest.dropWhile isHex)
  | '0' :: 'x' :: rest =>
    if rest.takeWhile isHex = [] then none else some ([], rest.takeWhile isHex, rest.dropWhile isHex)
  | _ => none

theorem hexNum_length {t hash digits rest : Text} (h : hexNum t = some (hash, digits, rest)) :
    rest.length < t.length := by
  unfold hexNum at h
  split at h
  · rename_i s
    have hle := (s.dropWhile_suffix isHex).length_le
    split at h
    · cases h
    · cases h
      simp only [List.length_cons]
      omega
  · rename_i s
    have hle := (s.dropWhile_suffix isHex).length_le
    split at h
    · cases h
    · cases h
      simp only [List.length_cons]
      omega
  · cases h

variable (equ : Dict ℕ String) (labels : Dict ℤ String) (allowed : List ℤ)

/-- The label of an address that the operand is declared to mean. -/
def declaredLabel (value : ℕ) : Option String := if (value : ℤ) ∈ allowed then labels.get? value else none

/-- What `repl` puts in place of a number, behind the hash mark. -/
def repl (digits : Text) : List Piece :=
  let value := hexValue digits
  match equ.get? value with
  | some name => [.symbol ⟨name, value, false⟩]
  | none =>
    match declaredLabel labels allowed value with
    | some name => [.symbol ⟨name, value, true⟩]
    | none =>
      -- a table scanned backwards is addressed one below its first entry
      match declaredLabel labels allowed (value + 1) with
      | some name => [.symbol ⟨name, value + 1, true⟩, .text ['-', '1']]
      | none => [.text ('0' :: 'x' :: digits)]

def substitute (ops : Text) : List Piece :=
  match ops with
  | [] => []
  | c :: rest =>
    match _h : hexNum (c :: rest) with
    | some (hash, digits, rest') => .text hash :: (repl equ labels allowed digits ++ substitute rest')
    | none => .text [c] :: substitute rest
termination_by ops.length
decreasing_by
  · exact hexNum_length _h
  · exact Nat.lt_succ_self _

end Operands

end S8000.Monitor
