import Mathlib.Data.List.Basic
import Mathlib.Tactic.Ring
import Mathlib.Algebra.Order.Ring.Nat

namespace S8000.Foundation.Bytes

abbrev Byte := BitVec 8
abbrev Word := BitVec 16

/-- The most significant byte of a word. -/
def high (w : Word) : Byte := w.extractLsb' 8 8

/-- The least significant byte of a word. -/
def low (w : Word) : Byte := w.extractLsb' 0 8

/-- The word made of two bytes, most significant first. -/
def word (h l : Byte) : Word := h ++ l

@[simp] theorem high_word (h l : Byte) : high (word h l) = h := by
  ext i hj
  simp only [high, word, BitVec.getElem_extractLsb', BitVec.getLsbD_append]
  simp [show ¬ 8 + i < 8 by omega, BitVec.getLsbD_eq_getElem hj]

@[simp] theorem low_word (h l : Byte) : low (word h l) = l := by
  ext i hj
  simp only [low, word, BitVec.getElem_extractLsb', BitVec.getLsbD_append]
  simp [hj]

@[simp] theorem word_high_low (w : Word) : word (high w) (low w) = w := by
  apply BitVec.eq_of_getLsbD_eq
  intro i hj
  simp only [word, high, low, BitVec.getLsbD_append, BitVec.getLsbD_extractLsb', Nat.zero_add]
  by_cases h : i < 8
  · simp [h]
  · simp [h, show i - 8 < 8 by omega, show 8 + (i - 8) = i by omega]

theorem word_toNat (h l : Byte) : (word h l).toNat = h.toNat * 256 + l.toNat := by
  rw [word, BitVec.toNat_append, Nat.shiftLeft_eq, Nat.mul_comm, ← Nat.two_pow_add_eq_or_of_lt l.isLt]

theorem high_toNat (w : Word) : (high w).toNat = w.toNat / 256 := by
  have h := word_toNat (high w) (low w)
  rw [word_high_low] at h
  have := (low w).isLt
  omega

theorem low_toNat (w : Word) : (low w).toNat = w.toNat % 256 := by
  have h := word_toNat (high w) (low w)
  rw [word_high_low] at h
  have := (low w).isLt
  omega

theorem high_xor (a b : Word) : high (a ^^^ b) = high a ^^^ high b := by
  ext i h
  simp [high]

theorem low_xor (a b : Word) : low (a ^^^ b) = low a ^^^ low b := by
  ext i h
  simp [low]

theorem extractLsb'_append (d : BitVec 32) : d.extractLsb' 16 16 ++ d.extractLsb' 0 16 = d := by
  apply BitVec.eq_of_getLsbD_eq
  intro i hi
  simp only [BitVec.getLsbD_append, BitVec.getLsbD_extractLsb', Nat.zero_add]
  by_cases h : i < 16
  · simp [h]
  · simp [h, show i - 16 < 16 by omega, show 16 + (i - 16) = i by omega]

theorem extractLsb'_high (a b : Word) : (a ++ b).extractLsb' 16 16 = a := by
  apply BitVec.eq_of_getLsbD_eq
  intro i hi
  have h : ¬ 16 + i < 16 := by omega
  rw [BitVec.getLsbD_extractLsb', BitVec.getLsbD_append, if_neg h, decide_eq_true hi,
    Nat.add_sub_cancel_left, Bool.true_and]

theorem extractLsb'_low (a b : Word) : (a ++ b).extractLsb' 0 16 = b := by
  apply BitVec.eq_of_getLsbD_eq
  intro i hi
  rw [BitVec.getLsbD_extractLsb', BitVec.getLsbD_append, Nat.zero_add, if_pos hi,
    decide_eq_true hi, Bool.true_and]

/-- The exclusive or of a list of bytes. -/
def xorAll (bytes : List Byte) : Byte := bytes.foldl (· ^^^ ·) 0

section LittleEndian

/-- The four bytes of a number below `2 ^ 32`, least significant first. -/
def le32 (n : ℕ) : List Byte :=
  [BitVec.ofNat 8 n, BitVec.ofNat 8 (n / 256), BitVec.ofNat 8 (n / 65536), BitVec.ofNat 8 (n / 16777216)]

/-- The number in front of a string, with what is behind it. -/
def popLe32 : List Byte → Option (ℕ × List Byte)
  | a :: b :: c :: d :: rest =>
    some (a.toNat + 256 * (b.toNat + 256 * (c.toNat + 256 * d.toNat)), rest)
  | _ => none

theorem popLe32_append {n : ℕ} (h : n < 4294967296) (rest : List Byte) :
    popLe32 (le32 n ++ rest) = some (n, rest) := by
  simp only [le32, List.cons_append, List.nil_append, popLe32, BitVec.toNat_ofNat, Option.some.injEq,
    Prod.mk.injEq, and_true]
  omega

theorem popLe32_lt {data rest : List Byte} {n : ℕ} (h : popLe32 data = some (n, rest)) :
    n < 4294967296 := by
  unfold popLe32 at h
  split at h
  · rename_i a b c d _
    simp only [Option.some.injEq, Prod.mk.injEq] at h
    have ha := a.isLt
    have hb := b.isLt
    have hc := c.isLt
    have hd := d.isLt
    omega
  · cases h

theorem eq_append_of_popLe32 {data rest : List Byte} {n : ℕ} (h : popLe32 data = some (n, rest)) :
    data = le32 n ++ rest := by
  unfold popLe32 at h
  split at h
  · rename_i a b c d _
    simp only [Option.some.injEq, Prod.mk.injEq] at h
    obtain ⟨rfl, rfl⟩ := h
    have ha := a.isLt
    have hb := b.isLt
    have hc := c.isLt
    have hd := d.isLt
    have hbyte : ∀ {x : Byte} {n : ℕ}, n % 256 = x.toNat → x = BitVec.ofNat 8 n := by
      intro x n hx
      apply BitVec.eq_of_toNat_eq
      rw [BitVec.toNat_ofNat, ← hx]
    rw [le32, ← hbyte (x := a) (by omega), ← hbyte (x := b) (by omega), ← hbyte (x := c) (by omega),
      ← hbyte (x := d) (by omega)]
    rfl
  · cases h

theorem length_le32 (n : ℕ) : (le32 n).length = 4 := rfl

end LittleEndian

section Slice

variable {α : Type}

/-- Resolves a slice bound as Python does: negative bounds count from the end. -/
def sliceBound (len : ℕ) (i : ℤ) : ℕ := if i < 0 then (len + i).toNat else i.toNat

/-- `l[i:j]` for integer bounds. -/
def slice (l : List α) (i j : ℤ) : List α :=
  (l.drop (sliceBound l.length i)).take (sliceBound l.length j - sliceBound l.length i)

theorem slice_nat (l : List α) (i n : ℕ) : slice l i (i + n : ℕ) = (l.drop i).take n := by
  simp only [slice, sliceBound, Int.not_ofNat_neg, ↓reduceIte, Int.toNat_natCast,
    Nat.add_sub_cancel_left]

/-- A piece of equal pieces. -/
theorem take_drop_flatMap_range (m n k : ℕ) (g : ℕ → List α) (hg : ∀ i, (g i).length = m) :
    (((List.range n).flatMap g).drop (m * k)).take m = if k < n then g k else [] := by
  induction n generalizing k g with
  | zero => simp
  | succ n ih =>
    rw [List.range_succ_eq_map, List.flatMap_cons, List.flatMap_map]
    cases k with
    | zero =>
      rw [Nat.mul_zero, List.drop_zero, ← hg 0, List.take_left, if_pos (Nat.succ_pos n)]
    | succ k =>
      have hlen : m * (k + 1) = (g 0).length + m * k := by rw [hg, Nat.mul_succ, Nat.add_comm]
      rw [hlen, ← List.drop_drop, List.drop_left]
      simpa using ih k (fun i ↦ g i.succ) (fun i ↦ hg i.succ)

end Slice

end S8000.Foundation.Bytes
