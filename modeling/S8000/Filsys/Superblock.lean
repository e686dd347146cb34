import S8000.Foundation.Records
import Mathlib.Logic.Function.Basic
import Mathlib.Data.List.Nodup

/-! The super block and the blocks of the free list, in the byte order of the disk. -/

namespace S8000.Filsys

open Foundation Foundation.Bytes Foundation.Buffer

def NICFREE : ℤ := 50
def NICINOD : ℤ := 100
def ROOTINO : ℕ := 2
def NIPB : ℕ := 8
def SUPERB : ℤ := 1

section Fields

abbrev Superblock := Buffer

variable (fp : Superblock)

abbrev sIsize : ℤ := short fp 0
abbrev sFsize : ℤ := long fp 2
abbrev sNfree : ℤ := short fp 6
abbrev sFree (k : ℕ) : ℤ := long fp (8 + 4 * k)
abbrev sNinode : ℤ := short fp 208
abbrev sInode (k : ℕ) : ℕ := ushort fp (210 + 2 * k)
abbrev sTfree : ℤ := long fp 418
abbrev sTinode : ℕ := ushort fp 422

abbrev setIsize (v : ℤ) : Superblock := setShort fp 0 v
abbrev setFsize (v : ℤ) : Superblock := setLong fp 2 v
abbrev setNfree (v : ℤ) : Superblock := setShort fp 6 v
abbrev setFree (k : ℕ) (v : ℤ) : Superblock := setLong fp (8 + 4 * k) v
abbrev setNinode (v : ℤ) : Superblock := setShort fp 208 v
abbrev setInode (k : ℕ) (v : ℤ) : Superblock := setShort fp (210 + 2 * k) v
abbrev setTime (v : ℤ) : Superblock := setLong fp 414 v
abbrev setTfree (v : ℤ) : Superblock := setLong fp 418 v
abbrev setTinode (v : ℤ) : Superblock := setShort fp 422 v
abbrev setM (v : ℤ) : Superblock := setShort fp 424 v
abbrev setN (v : ℤ) : Superblock := setShort fp 426 v

abbrev sFlock : Byte := fp 410
abbrev sIlock : Byte := fp 411
abbrev sFmod : Byte := fp 412
abbrev sRonly : Byte := fp 413

def setFmod (v : Byte) : Superblock := Function.update fp 412 v

theorem setFmod_apply_of_ne (v : Byte) {i : ℕ} (h : i ≠ 412) : setFmod fp v i = fp i := by
  rw [setFmod, Function.update_of_ne h]

theorem sFmod_setFmod (v : Byte) : sFmod (setFmod fp v) = v := by
  rw [sFmod, setFmod, Function.update_self]

/-- What the free list and its total do not touch. -/
def KeepsInodes (fp fp' : Superblock) : Prop := ∀ i, i < 6 ∨ 208 ≤ i ∧ i < 412 ∨ i = 413 ∨ 422 ≤ i ∧ i < 424 → fp' i = fp i

/-- What the list of inodes and its total do not touch. -/
def KeepsBlocks (fp fp' : Superblock) : Prop :=
  ∀ i, i < 208 ∨ 410 ≤ i ∧ i < 412 ∨ i = 413 ∨ 418 ≤ i ∧ i < 422 → fp' i = fp i

variable {fp}

theorem KeepsInodes.trans {fp' fp'' : Superblock} (h : KeepsInodes fp fp') (h' : KeepsInodes fp' fp'') : KeepsInodes fp fp'' :=
  fun i hi ↦ (h' i hi).trans (h i hi)

theorem KeepsBlocks.trans {fp' fp'' : Superblock} (h : KeepsBlocks fp fp') (h' : KeepsBlocks fp' fp'') : KeepsBlocks fp fp'' :=
  fun i hi ↦ (h' i hi).trans (h i hi)

end Fields

section Entries

/-- The count at `off` and the table of block numbers behind it. -/
def entries (b : Buffer) (off : ℕ) : List ℤ :=
  (List.range (short b off).toNat).map fun k ↦ long b (off + 2 + 4 * k)

theorem length_entries (b : Buffer) (off : ℕ) : (entries b off).length = (short b off).toNat := by
  rw [entries, List.length_map, List.length_range]

/-- Only the entries in use matter. -/
theorem entries_congr_of_lt {b c : Buffer} {off off' : ℕ}
    (h : ∀ i < 2 + 4 * (short b off).toNat, b (off + i) = c (off' + i)) : entries b off = entries c off' := by
  have hsame : short b off = short c off' := short_congr (h 0 (by omega)) (h 1 (by omega))
  rw [entries, entries, ← hsame]
  refine List.map_congr_left fun k hk ↦ long_congr fun i hi ↦ ?_
  have hlt := List.mem_range.mp hk
  have hbyte := h (2 + 4 * k + i) (by omega)
  rw [show off + 2 + 4 * k + i = off + (2 + 4 * k + i) by omega, hbyte,
    show off' + 2 + 4 * k + i = off' + (2 + 4 * k + i) by omega]

theorem entries_congr {b c : Buffer} {off off' : ℕ} (h : ∀ i < 202, b (off + i) = c (off' + i))
    (hcount : short b off ≤ NICFREE) : entries b off = entries c off' := by
  rw [NICFREE] at hcount
  exact entries_congr_of_lt fun i hi ↦ h i (by omega)

/-- The last entry and the rest. -/
theorem entries_of_pos {b : Buffer} {off : ℕ} (h : 0 < short b off) (hcount : short b off ≤ NICFREE) :
    entries b off =
      entries (setShort b off (short b off - 1)) off ++ [long b (off + 2 + 4 * (short b off - 1).toNat)] := by
  rw [NICFREE] at hcount
  have hset : short (setShort b off (short b off - 1)) off = short b off - 1 := short_setShort (by omega)
  have hlen : (short b off).toNat = (short b off - 1).toNat + 1 := by omega
  rw [entries, entries, hset, hlen, List.range_succ, List.map_append]
  refine congrArg₂ (· ++ ·) (List.map_congr_left fun k _ ↦ ?_) rfl
  exact (long_setShort_of_apart (by omega)).symm

/-- One more entry behind the others. -/
theorem entries_push {b : Buffer} {off : ℕ} {v : ℤ} (h : 0 ≤ short b off) (hcount : short b off < NICFREE)
    (hv : -2147483648 ≤ v ∧ v < 2147483648) :
    entries (setShort (setLong b (off + 2 + 4 * (short b off).toNat) v) off (short b off + 1)) off =
      entries b off ++ [v] := by
  rw [NICFREE] at hcount
  have hset : short (setShort (setLong b (off + 2 + 4 * (short b off).toNat) v) off (short b off + 1)) off =
      short b off + 1 := short_setShort (by omega)
  rw [entries, hset, show (short b off + 1).toNat = (short b off).toNat + 1 by omega, List.range_succ, List.map_append]
  refine congrArg₂ (· ++ ·) (List.map_congr_left fun k hk ↦ ?_) ?_
  · have hlt := List.mem_range.mp hk
    rw [long_setShort_of_apart (by omega), long_setLong_of_apart (by omega)]
  · rw [List.map_singleton, long_setShort_of_apart (by omega), long_setLong hv]

end Entries

end S8000.Filsys
