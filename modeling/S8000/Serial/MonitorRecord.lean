import S8000.Foundation.Bytes
import S8000.Foundation.Traversal
import Mathlib.Data.Nat.Digits.Lemmas
import Mathlib.Tactic.IntervalCases

namespace S8000.Serial.Download

open Foundation Foundation.Bytes Foundation.Traversal

section Digits

def slash : Byte := 0x2F
def cr : Byte := 0x0D

/-- An upper-case hexadecimal digit. -/
def hexChar (d : ℕ) : Byte := BitVec.ofNat 8 (if d < 10 then 0x30 + d else 0x37 + d)

def hexValue (c : Byte) : Option ℕ :=
  if 0x30 ≤ c.toNat ∧ c.toNat ≤ 0x39 then some (c.toNat - 0x30)
  else if 0x41 ≤ c.toNat ∧ c.toNat ≤ 0x46 then some (c.toNat - 0x37)
  else none

theorem hexValue_hexChar {d : ℕ} (h : d < 16) : hexValue (hexChar d) = some d := by
  interval_cases d <;> decide

theorem hexValue_slash : hexValue slash = none := by decide

theorem hexValue_cr : hexValue cr = none := by decide

theorem hexChar_ne_cr {d : ℕ} (h : d < 16) : hexChar d ≠ cr := by
  intro heq
  have hvalue := hexValue_hexChar h
  rw [heq, hexValue_cr] at hvalue
  cases hvalue

/-- Hexadecimal digits, each a number. -/
def AreDigits (ds : List ℕ) : Prop := ∀ d ∈ ds, d < 16

theorem AreDigits.append {ds ds' : List ℕ} (h : AreDigits ds) (h' : AreDigits ds') : AreDigits (ds ++ ds') :=
  List.forall_mem_append.mpr ⟨h, h'⟩

theorem mapM_hexValue {ds : List ℕ} (h : AreDigits ds) : (ds.map hexChar).mapM hexValue = some ds := by
  rw [mapM_eq_some, List.forall₂_map_left_iff, List.forall₂_same]
  exact fun d hd ↦ hexValue_hexChar (h d hd)

theorem cr_notMem {ds : List ℕ} (h : AreDigits ds) : cr ∉ ds.map hexChar := by
  intro hmem
  obtain ⟨d, hd, heq⟩ := List.mem_map.mp hmem
  exact hexChar_ne_cr (h d hd) heq

/-- The digits of a field of a fixed width, most significant first. -/
def fieldDigits (width n : ℕ) : List ℕ := (Nat.digitsAppend 16 width n).reverse

/-- A number in upper-case hexadecimal with at least `width` digits. -/
def fmtX (width n : ℕ) : List Byte := (fieldDigits width n).map hexChar

theorem areDigits_field (width n : ℕ) : AreDigits (fieldDigits width n) := fun d hd ↦
  Nat.lt_of_mem_digitsAppend (by decide) width d (List.mem_reverse.mp hd)

theorem length_fieldDigits {width n : ℕ} (h : n < 16 ^ width) : (fieldDigits width n).length = width := by
  rw [fieldDigits, List.length_reverse, Nat.length_digitsAppend (by decide) width h]

/-- The number that hexadecimal digits stand for, most significant first. -/
def number (ds : List ℕ) : ℕ := Nat.ofDigits 16 ds.reverse

theorem number_fieldDigits (width n : ℕ) : number (fieldDigits width n) = n := by
  rw [number, fieldDigits, List.reverse_reverse, Nat.digitsAppend, Nat.ofDigits_append_replicate_zero,
    Nat.ofDigits_digits]

/-- The two digits of every byte. -/
def nibbles (payload : List Byte) : List ℕ := payload.flatMap fun b ↦ [b.toNat / 16, b.toNat % 16]

/-- `payload.hex().upper()`. -/
def hex (payload : List Byte) : List Byte := (nibbles payload).map hexChar

def bytesOf : List ℕ → List Byte
  | h :: l :: ds => BitVec.ofNat 8 (16 * h + l) :: bytesOf ds
  | _ => []

theorem areDigits_nibbles (payload : List Byte) : AreDigits (nibbles payload) := by
  intro d hd
  obtain ⟨b, -, hd⟩ := List.mem_flatMap.mp hd
  have hb := b.isLt
  simp only [List.mem_cons, List.not_mem_nil, or_false] at hd
  omega

theorem length_nibbles (payload : List Byte) : (nibbles payload).length = 2 * payload.length := by
  induction payload with
  | nil => rfl
  | cons b payload ih =>
    rw [nibbles, List.flatMap_cons, ← nibbles, List.length_append, ih, List.length_cons]
    simp only [List.length_cons, List.length_nil]
    omega

theorem bytesOf_nibbles (payload : List Byte) : bytesOf (nibbles payload) = payload := by
  induction payload with
  | nil => rfl
  | cons b payload ih =>
    change BitVec.ofNat 8 (16 * (b.toNat / 16) + b.toNat % 16) :: bytesOf (nibbles payload) = b :: payload
    rw [ih, Nat.div_add_mod, BitVec.ofNat_toNat, BitVec.setWidth_eq]

end Digits

section Records

/-- `sum(int(digit, 16) for digit in text) & 0xFF`. -/
def digitSum (text : List Byte) : ℕ := (text.map fun c ↦ (hexValue c).getD 0).sum % 256

theorem digitSum_map {ds : List ℕ} (h : AreDigits ds) : digitSum (ds.map hexChar) = ds.sum % 256 := by
  rw [digitSum, List.map_map]
  congr 2
  refine (List.map_congr_left fun d hd ↦ ?_).trans (List.map_id ds)
  rw [Function.comp_apply, hexValue_hexChar (h d hd)]
  rfl

/-- Address and count of a record. -/
def header (address : ℕ) (payload : List Byte) : List Byte := fmtX 4 address ++ fmtX 2 payload.length

/-- What a record has between the slash and the carriage return. -/
def body (address : ℕ) (payload : List Byte) : List Byte :=
  header address payload ++ fmtX 2 (digitSum (header address payload)) ++
    if payload = [] then [] else hex payload ++ fmtX 2 (digitSum (hex payload))

/-- A record as the monitor takes it: where it goes and what it holds. -/
abbrev Load := ℕ × List Byte

/-- The record between the slash and the carriage return, if both of its checksums are right. -/
def decodeRecord (frame : List Byte) : Option Load :=
  match frame.mapM hexValue with
  | none => none
  | some ds =>
    let address := number (ds.take 4)
    let count := number ((ds.drop 4).take 2)
    let data := (ds.drop 8).take (2 * count)
    if number ((ds.drop 6).take 2) ≠ (ds.take 6).sum % 256 then none
    else if count = 0 then if ds.length = 8 then some (address, []) else none
    else if ds.length = 8 + 2 * count + 2 ∧ number (ds.drop (8 + 2 * count)) = data.sum % 256 then
      some (address, bytesOf data)
    else none

/-- The digits of a record. -/
def recordDigits (address : ℕ) (payload : List Byte) : List ℕ :=
  fieldDigits 4 address ++ (fieldDigits 2 payload.length ++
    (fieldDigits 2 ((fieldDigits 4 address ++ fieldDigits 2 payload.length).sum % 256) ++
      if payload = [] then [] else nibbles payload ++ fieldDigits 2 ((nibbles payload).sum % 256)))

theorem areDigits_record (address : ℕ) (payload : List Byte) : AreDigits (recordDigits address payload) := by
  refine (areDigits_field _ _).append ((areDigits_field _ _).append ((areDigits_field _ _).append ?_))
  split
  · exact fun d hd ↦ absurd hd List.not_mem_nil
  · exact (areDigits_nibbles _).append (areDigits_field _ _)

theorem body_eq (address : ℕ) (payload : List Byte) :
    body address payload = (recordDigits address payload).map hexChar := by
  have hheader : header address payload = (fieldDigits 4 address ++ fieldDigits 2 payload.length).map hexChar := by
    rw [header, fmtX, fmtX, List.map_append]
  rw [body, hheader, digitSum_map ((areDigits_field _ _).append (areDigits_field _ _)), recordDigits]
  split
  · simp only [fmtX, List.map_append, List.append_assoc, List.map_nil]
  · rw [hex, digitSum_map (areDigits_nibbles _)]
    simp only [fmtX, List.map_append, List.append_assoc]

/-- The monitor reads from a record what was put into it. -/
theorem decodeRecord_body {address : ℕ} {payload : List Byte} (ha : address < 0x10000) (hp : payload.length < 256) :
    decodeRecord (body address payload) = some (address, payload) := by
  have h4 : (fieldDigits 4 address).length = 4 := length_fieldDigits ha
  have h2 : (fieldDigits 2 payload.length).length = 2 := length_fieldDigits hp
  have hsum : ∀ n, (fieldDigits 2 (n % 256)).length = 2 := fun n ↦ length_fieldDigits (Nat.mod_lt n (by decide))
  rw [decodeRecord, body_eq, mapM_hexValue (areDigits_record address payload)]
  have htake4 : (recordDigits address payload).take 4 = fieldDigits 4 address := List.take_left' h4
  have htake6 : (recordDigits address payload).take 6 = fieldDigits 4 address ++ fieldDigits 2 payload.length := by
    rw [recordDigits, ← List.append_assoc]
    exact List.take_left' (by rw [List.length_append, h4, h2])
  have hcount : ((recordDigits address payload).drop 4).take 2 = fieldDigits 2 payload.length := by
    rw [recordDigits, List.drop_left' h4]
    exact List.take_left' h2
  have hdrop6 : (recordDigits address payload).drop 6 =
      fieldDigits 2 ((fieldDigits 4 address ++ fieldDigits 2 payload.length).sum % 256) ++
        if payload = [] then [] else nibbles payload ++ fieldDigits 2 ((nibbles payload).sum % 256) := by
    rw [recordDigits, ← List.append_assoc]
    exact List.drop_left' (by rw [List.length_append, h4, h2])
  have hdrop8 : (recordDigits address payload).drop 8 =
      if payload = [] then [] else nibbles payload ++ fieldDigits 2 ((nibbles payload).sum % 256) := by
    rw [show 8 = 6 + 2 from rfl, ← List.drop_drop, hdrop6]
    exact List.drop_left' (hsum _)
  have hlength : (recordDigits address payload).length =
      8 + ((recordDigits address payload).drop 8).length := by
    rw [hdrop8, recordDigits]
    simp only [List.length_append, h4, h2, hsum]
    omega
  dsimp only
  rw [htake4, htake6, hcount, hdrop6, List.take_left' (hsum _), number_fieldDigits, number_fieldDigits,
    number_fieldDigits, if_neg (not_not.mpr rfl), hlength, ← List.drop_drop, hdrop8]
  by_cases hnil : payload = []
  · subst hnil
    rfl
  · have hpos : payload.length ≠ 0 := fun h0 ↦ hnil (List.length_eq_zero_iff.mp h0)
    rw [if_neg hpos, if_neg hnil, List.take_left' (length_nibbles payload), List.drop_left' (length_nibbles payload),
      number_fieldDigits, bytesOf_nibbles, if_pos]
    refine ⟨?_, rfl⟩
    rw [List.length_append, length_nibbles, hsum, Nat.add_assoc]

end Records

end S8000.Serial.Download
