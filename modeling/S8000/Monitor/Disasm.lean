import S8000.Foundation.Dict
import Mathlib.Data.Int.Interval
import Mathlib.Data.Finset.Card
import Mathlib.Logic.Relation

namespace S8000.Monitor

open Foundation

abbrev Text := List Char

/-- One instruction of the listing: its words, its mnemonic and its operands. -/
structure Insn where
  words : ℕ
  mnem : String
  ops : Text
  words_pos : 0 < words

namespace Insn

/-- `len(raw) * 2`. -/
def length (i : Insn) : ℤ := i.words * 2

theorem length_pos (i : Insn) : 0 < i.length := by
  have h := i.words_pos
  rw [length]
  omega

end Insn

/-- What the disassembler makes of the image at an address. -/
abbrev Decoder := ℤ → Insn

section Operands

def isHex (c : Char) : Bool := '0' ≤ c ∧ c ≤ '9' ∨ 'a' ≤ c ∧ c ≤ 'f'

def hexDigit (c : Char) : ℕ := if c ≤ '9' then c.toNat - '0'.toNat else c.toNat - 'a'.toNat + 10

/-- `int(digits, 16)`. -/
def hexValue (digits : Text) : ℕ := digits.foldl (fun n c ↦ 16 * n + hexDigit c) 0

/-- `\s` of a regular expression on text. -/
def isSpace (c : Char) : Bool :=
  let n := c.toNat
  9 ≤ n ∧ n ≤ 13 ∨ 28 ≤ n ∧ n ≤ 32 ∨ n = 0x85 ∨ n = 0xA0 ∨ n = 0x1680 ∨ 0x2000 ≤ n ∧ n ≤ 0x200A ∨
    n = 0x2028 ∨ n = 0x2029 ∨ n = 0x202F ∨ n = 0x205F ∨ n = 0x3000

/-- The match of `0x([0-9a-f]+)\s*$` that begins here. -/
def matchTarget : Text → Option ℕ
  | '0' :: 'x' :: rest =>
    if rest.takeWhile isHex ≠ [] ∧ (rest.dropWhile isHex).all isSpace then
      some (hexValue (rest.takeWhile isHex))
    else none
  | _ => none

/-- `TARGET_OPS.search`: the text before the match and the number that was matched. -/
def searchTarget : Text → Option (Text × ℕ)
  | [] => none
  | c :: rest =>
    match matchTarget (c :: rest) with
    | some value => some ([], value)
    | none => (searchTarget rest).map fun m ↦ (c :: m.1, m.2)

end Operands

/-- Instructions one after another from `start` until `stop`. -/
def disasm (decode : Decoder) (start stop : ℤ) : List (ℤ × Insn) :=
  if start < stop then (start, decode start) :: disasm decode (start + (decode start).length) stop else []
termination_by (stop - start).toNat
decreasing_by
  have h := (decode start).length_pos
  omega

theorem disasm_of_lt {decode : Decoder} {start stop : ℤ} (h : start < stop) :
    disasm decode start stop =
      (start, decode start) :: disasm decode (start + (decode start).length) stop := by
  rw [disasm, if_pos h]

theorem disasm_of_le {decode : Decoder} {start stop : ℤ} (h : stop ≤ start) : disasm decode start stop = [] := by
  rw [disasm, if_neg (not_lt.mpr h)]

end S8000.Monitor
