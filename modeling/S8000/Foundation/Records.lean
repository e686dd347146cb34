import S8000.Foundation.Bytes
import Mathlib.Data.Int.DivMod

/-! Records of big-endian integers in a buffer of bytes. -/

namespace S8000.Foundation

open Bytes

abbrev Buffer := ℕ → Byte

namespace Buffer

section Copy

def get (b : Buffer) (off n : ℕ) : List Byte := (List.range n).map fun i ↦ b (off + i)

/-- Copies bytes into a buffer. -/
def put (b : Buffer) (off : ℕ) (bytes : List Byte) : Buffer := fun i ↦
  if off ≤ i then (bytes[i - off]?).getD (b i) else b i

theorem put_apply_of_apart {b : Buffer} {off i : ℕ} {bytes : List Byte} (h : i < off ∨ off + bytes.length ≤ i) :
    put b off bytes i = b i := by
  unfold put
  split
  · rw [List.getElem?_eq_none (by omega), Option.getD_none]
  · rfl

theorem put_apply_add {b : Buffer} {off i : ℕ} {bytes : List Byte} (h : i < bytes.length) :
    put b off bytes (off + i) = bytes[i] := by
  rw [put, if_pos (Nat.le_add_right off i), Nat.add_sub_cancel_left, List.getElem?_eq_getElem h, Option.getD_some]

/-- What was copied from another buffer. -/
theorem put_get_apply {b c : Buffer} {off off' n i : ℕ} (h : i < n) :
    put b off (get c off' n) (off + i) = c (off' + i) := by
  rw [put_apply_add (by simpa [get] using h)]
  simp [get]

theorem put_nil (b : Buffer) (off : ℕ) : put b off [] = b := by
  funext i
  unfold put
  split <;> rfl

theorem put_append (b : Buffer) (off : ℕ) (l l' : List Byte) : put (put b off l) (off + l.length) l' = put b off (l ++ l') := by
  funext i
  unfold put
  by_cases hlow : off ≤ i
  · rw [if_pos hlow, if_pos hlow]
    by_cases hlen : i - off < l.length
    · rw [if_neg (by omega), List.getElem?_append_left hlen]
    · rw [if_pos (by omega), List.getElem?_eq_none (not_lt.mp hlen), Option.getD_none,
        List.getElem?_append_right (not_lt.mp hlen), Nat.sub_add_eq]
  · rw [if_neg hlow, if_neg hlow, if_neg (by omega)]

end Copy

section Integers

/-- An unsigned 16-bit integer, most significant byte first. -/
@[irreducible] def ushort (b : Buffer) (off : ℕ) : ℕ := (b off).toNat * 256 + (b (off + 1)).toNat

@[irreducible] def ulong (b : Buffer) (off : ℕ) : ℕ := ushort b off * 65536 + ushort b (off + 2)

@[irreducible] def short (b : Buffer) (off : ℕ) : ℤ := (ushort b off : ℤ).bmod 65536

@[irreducible] def long (b : Buffer) (off : ℕ) : ℤ := (ulong b off : ℤ).bmod 4294967296

def setShort (b : Buffer) (off : ℕ) (v : ℤ) : Buffer := put b off [BitVec.ofInt 8 (v / 256), BitVec.ofInt 8 v]

def setLong (b : Buffer) (off : ℕ) (v : ℤ) : Buffer := setShort (setShort b off (v / 65536)) (off + 2) v

/-- An unsigned 24-bit integer. -/
@[irreducible] def triple (b : Buffer) (off : ℕ) : ℕ :=
  (b off).toNat * 65536 + (b (off + 1)).toNat * 256 + (b (off + 2)).toNat

def setTriple (b : Buffer) (off : ℕ) (v : ℤ) : Buffer :=
  put b off [BitVec.ofInt 8 (v / 65536), BitVec.ofInt 8 (v / 256), BitVec.ofInt 8 v]

/-- The first integers of a table, one behind the other. -/
def setTriples (b : Buffer) (off : ℕ) (a : ℕ → ℤ) : ℕ → Buffer
  | 0 => b
  | n + 1 => setTriple (setTriples b off a n) (off + 3 * n) (a n)

variable {b c : Buffer} {off off' i : ℕ} {v : ℤ}

theorem setShort_apply_of_apart (h : i < off ∨ off + 2 ≤ i) : setShort b off v i = b i :=
  put_apply_of_apart h

theorem setLong_apply_of_apart (h : i < off ∨ off + 4 ≤ i) : setLong b off v i = b i := by
  rw [setLong, setShort_apply_of_apart (by omega), setShort_apply_of_apart (by omega)]

theorem ushort_congr (h : b off = c off') (h' : b (off + 1) = c (off' + 1)) : ushort b off = ushort c off' := by
  unfold ushort
  rw [h, h']

theorem ulong_congr (h : ∀ i < 4, b (off + i) = c (off' + i)) : ulong b off = ulong c off' := by
  have hfirst : ushort b off = ushort c off' := ushort_congr (h 0 (by decide)) (h 1 (by decide))
  have hsecond : ushort b (off + 2) = ushort c (off' + 2) := ushort_congr (h 2 (by decide)) (h 3 (by decide))
  unfold ulong
  rw [hfirst, hsecond]

theorem short_congr (h : b off = c off') (h' : b (off + 1) = c (off' + 1)) : short b off = short c off' := by
  unfold short
  rw [ushort_congr h h']

theorem long_congr (h : ∀ i < 4, b (off + i) = c (off' + i)) : long b off = long c off' := by
  unfold long
  rw [ulong_congr h]

theorem short_of_zero (h : b off = 0) (h' : b (off + 1) = 0) : short b off = 0 := by
  have hzero : ushort b off = 0 := by
    unfold ushort
    rw [h, h']
    rfl
  unfold short
  rw [hzero, Nat.cast_zero, Int.zero_bmod]

theorem ushort_lt (b : Buffer) (off : ℕ) : ushort b off < 65536 := by
  have hfirst := (b off).isLt
  have hsecond := (b (off + 1)).isLt
  unfold ushort
  omega

theorem short_range (b : Buffer) (off : ℕ) : -32768 ≤ short b off ∧ short b off < 32768 := by
  unfold short
  exact ⟨Int.le_bmod (by decide), Int.bmod_lt (by decide)⟩

theorem long_range (b : Buffer) (off : ℕ) : -2147483648 ≤ long b off ∧ long b off < 2147483648 := by
  unfold long
  exact ⟨Int.le_bmod (by decide), Int.bmod_lt (by decide)⟩

theorem ushort_setShort : (ushort (setShort b off v) off : ℤ) = v % 65536 := by
  have hfirst : setShort b off v (off + 0) = BitVec.ofInt 8 (v / 256) := put_apply_add (by simp)
  have hsecond : setShort b off v (off + 1) = BitVec.ofInt 8 v := put_apply_add (by simp)
  rw [Nat.add_zero] at hfirst
  unfold ushort
  rw [hfirst, hsecond, BitVec.toNat_ofInt, BitVec.toNat_ofInt]
  omega

theorem short_setShort (h : -32768 ≤ v ∧ v < 32768) : short (setShort b off v) off = v := by
  have hvalue : (ushort (setShort b off v) off : ℤ) = v % 65536 := ushort_setShort
  unfold short
  rw [Int.bmod_def, hvalue]
  split
  · rename_i hlt
    push_cast at hlt ⊢
    omega
  · rename_i hlt
    push_cast at hlt ⊢
    omega

theorem ulong_setLong : (ulong (setLong b off v) off : ℤ) = v % 4294967296 := by
  have hfirst : ushort (setLong b off v) off = ushort (setShort b off (v / 65536)) off := by
    refine ushort_congr ?_ ?_ <;> rw [setLong, setShort_apply_of_apart (by omega)]
  have hvalue : (ushort (setShort b off (v / 65536)) off : ℤ) = v / 65536 % 65536 := ushort_setShort
  have hsecond : (ushort (setLong b off v) (off + 2) : ℤ) = v % 65536 := ushort_setShort
  unfold ulong
  rw [hfirst]
  push_cast
  rw [hvalue, hsecond]
  omega

theorem long_setLong (h : -2147483648 ≤ v ∧ v < 2147483648) : long (setLong b off v) off = v := by
  have hvalue : (ulong (setLong b off v) off : ℤ) = v % 4294967296 := ulong_setLong
  unfold long
  rw [Int.bmod_def, hvalue]
  split
  · rename_i hlt
    push_cast at hlt ⊢
    omega
  · rename_i hlt
    push_cast at hlt ⊢
    omega

theorem ushort_setShort_of_apart (h : off' + 2 ≤ off ∨ off + 2 ≤ off') :
    ushort (setShort b off v) off' = ushort b off' :=
  ushort_congr (setShort_apply_of_apart (by omega)) (setShort_apply_of_apart (by omega))

theorem short_setShort_of_apart (h : off' + 2 ≤ off ∨ off + 2 ≤ off') : short (setShort b off v) off' = short b off' :=
  short_congr (setShort_apply_of_apart (by omega)) (setShort_apply_of_apart (by omega))

theorem long_setShort_of_apart (h : off' + 4 ≤ off ∨ off + 2 ≤ off') : long (setShort b off v) off' = long b off' :=
  long_congr fun i hi ↦ setShort_apply_of_apart (by omega)

theorem ushort_setLong_of_apart (h : off' + 2 ≤ off ∨ off + 4 ≤ off') : ushort (setLong b off v) off' = ushort b off' :=
  ushort_congr (setLong_apply_of_apart (by omega)) (setLong_apply_of_apart (by omega))

theorem short_setLong_of_apart (h : off' + 2 ≤ off ∨ off + 4 ≤ off') : short (setLong b off v) off' = short b off' :=
  short_congr (setLong_apply_of_apart (by omega)) (setLong_apply_of_apart (by omega))

theorem long_setLong_of_apart (h : off' + 4 ≤ off ∨ off + 4 ≤ off') : long (setLong b off v) off' = long b off' :=
  long_congr fun i hi ↦ setLong_apply_of_apart (by omega)

theorem setTriple_apply_of_apart (h : i < off ∨ off + 3 ≤ i) : setTriple b off v i = b i :=
  put_apply_of_apart h

theorem triple_congr (h : ∀ i < 3, b (off + i) = c (off' + i)) : triple b off = triple c off' := by
  have hzero := h 0 (by decide)
  unfold triple
  rw [h 1 (by decide), h 2 (by decide)]
  rw [Nat.add_zero, Nat.add_zero] at hzero
  rw [hzero]

theorem triple_lt (b : Buffer) (off : ℕ) : triple b off < 16777216 := by
  unfold triple
  have hfirst := (b off).isLt
  have hsecond := (b (off + 1)).isLt
  have hthird := (b (off + 2)).isLt
  omega

theorem triple_setTriple (h : 0 ≤ v ∧ v < 16777216) : (triple (setTriple b off v) off : ℤ) = v := by
  have hfirst : setTriple b off v (off + 0) = BitVec.ofInt 8 (v / 65536) := put_apply_add (by simp)
  have hsecond : setTriple b off v (off + 1) = BitVec.ofInt 8 (v / 256) := put_apply_add (by simp)
  have hthird : setTriple b off v (off + 2) = BitVec.ofInt 8 v := put_apply_add (by simp)
  rw [Nat.add_zero] at hfirst
  unfold triple
  rw [hfirst, hsecond, hthird, BitVec.toNat_ofInt, BitVec.toNat_ofInt, BitVec.toNat_ofInt]
  omega

theorem triple_setTriple_of_apart (h : off' + 3 ≤ off ∨ off + 3 ≤ off') :
    triple (setTriple b off v) off' = triple b off' :=
  triple_congr fun i hi ↦ setTriple_apply_of_apart (by omega)

variable {a : ℕ → ℤ} {n : ℕ}

theorem setTriples_apply_of_apart (h : i < off ∨ off + 3 * n ≤ i) : setTriples b off a n i = b i := by
  induction n with
  | zero => rfl
  | succ n ih =>
    rw [setTriples, setTriple_apply_of_apart (by omega)]
    exact ih (by omega)

theorem triple_setTriples (h : ∀ i < n, 0 ≤ a i ∧ a i < 16777216) (hi : i < n) :
    (triple (setTriples b off a n) (off + 3 * i) : ℤ) = a i := by
  induction n with
  | zero => omega
  | succ n ih =>
    rw [setTriples]
    rcases Nat.lt_succ_iff_lt_or_eq.mp hi with hlt | heq
    · rw [triple_setTriple_of_apart (by omega)]
      exact ih (fun j hj ↦ h j (by omega)) hlt
    · rw [heq]
      exact triple_setTriple (h n (by omega))

end Integers

end Buffer

end S8000.Foundation
