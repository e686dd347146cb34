import S8000.Filsys.Superblock

/-! Inodes, in core and in the byte order of the disk. -/

namespace S8000.Filsys

open Foundation Foundation.Bytes Foundation.Buffer

def NADDR : ℕ := 13

/-- What the inode of a regular file or a directory says about its contents. -/
structure File where
  iSize : ℤ
  iAddr : ℕ → ℤ

/-- An entry of the table of inodes in core. It goes to the disk when it is `due`. -/
structure Inode extends File where
  iNumber : ℕ
  iMode : ℕ
  iNlink : ℤ
  iUid : ℤ
  iGid : ℤ
  due : Bool

section Code

/-- The inode at an offset of its block. -/
def iexpand (ino : ℕ) (dp : Buffer) (off : ℕ) : Inode where
  iNumber := ino
  iMode := ushort dp off
  iNlink := short dp (off + 2)
  iUid := short dp (off + 4)
  iGid := short dp (off + 6)
  iSize := long dp (off + 8)
  iAddr i := if i < NADDR then triple dp (off + 12 + 3 * i) else 0
  due := false

/-- What `iupdat` puts into the block of an inode. -/
def Inode.store (ip : Inode) (dp : Buffer) (off : ℕ) : Buffer :=
  let mode := setShort dp off ip.iMode
  let owner := setShort (setShort (setShort mode (off + 2) ip.iNlink) (off + 4) ip.iUid) (off + 6) ip.iGid
  setTriples (setLong owner (off + 8) ip.iSize) (off + 12) ip.iAddr NADDR

end Code

section RoundTrip

variable {ip : Inode} {dp : Buffer} {off off' i : ℕ}

/-- An inode whose fields fit those on the disk. -/
structure Inode.Fits (ip : Inode) : Prop where
  mode : ip.iMode < 65536
  nlink : -32768 ≤ ip.iNlink ∧ ip.iNlink < 32768
  uid : -32768 ≤ ip.iUid ∧ ip.iUid < 32768
  gid : -32768 ≤ ip.iGid ∧ ip.iGid < 32768
  size : -2147483648 ≤ ip.iSize ∧ ip.iSize < 2147483648
  addr : ∀ i < NADDR, 0 ≤ ip.iAddr i ∧ ip.iAddr i < 16777216
  beyond : ∀ i, NADDR ≤ i → ip.iAddr i = 0

theorem fits_iexpand (ino : ℕ) (dp : Buffer) (off : ℕ) : (iexpand ino dp off).Fits := by
  refine ⟨ushort_lt _ _, short_range _ _, short_range _ _, short_range _ _, long_range _ _, fun i hi ↦ ?_, fun i hi ↦ ?_⟩
  · have haddr : (iexpand ino dp off).iAddr i = triple dp (off + 12 + 3 * i) := if_pos hi
    have hlt := triple_lt dp (off + 12 + 3 * i)
    rw [haddr]
    omega
  · exact if_neg (not_lt.mpr hi)

theorem store_apply_of_apart (h : i < off ∨ off + 64 ≤ i) : ip.store dp off i = dp i := by
  rw [Inode.store, setTriples_apply_of_apart (by rw [NADDR]; omega), setLong_apply_of_apart (by omega),
    setShort_apply_of_apart (by omega), setShort_apply_of_apart (by omega), setShort_apply_of_apart (by omega),
    setShort_apply_of_apart (by omega)]

/-- Nothing else in the block matters to an inode. -/
theorem iexpand_congr {dp' : Buffer} (ino : ℕ) (h : ∀ i < 64, dp' (off + i) = dp (off + i)) :
    iexpand ino dp' off = iexpand ino dp off := by
  have haddr (i : ℕ) (hi : i < NADDR) : triple dp' (off + 12 + 3 * i) = triple dp (off + 12 + 3 * i) := by
    rw [NADDR] at hi
    refine triple_congr fun k hk ↦ ?_
    have hbyte := h (12 + 3 * i + k) (by omega)
    rw [show off + 12 + 3 * i + k = off + (12 + 3 * i + k) by omega]
    exact hbyte
  have hmode : ushort dp' off = ushort dp off := ushort_congr (h 0 (by decide)) (h 1 (by decide))
  have hnlink : short dp' (off + 2) = short dp (off + 2) := short_congr (h 2 (by decide)) (h 3 (by decide))
  have huid : short dp' (off + 4) = short dp (off + 4) := short_congr (h 4 (by decide)) (h 5 (by decide))
  have hgid : short dp' (off + 6) = short dp (off + 6) := short_congr (h 6 (by decide)) (h 7 (by decide))
  have hsize : long dp' (off + 8) = long dp (off + 8) := by
    refine long_congr fun k hk ↦ ?_
    rw [Nat.add_assoc]
    exact h (8 + k) (by omega)
  have haddrs : (fun i ↦ if i < NADDR then (triple dp' (off + 12 + 3 * i) : ℤ) else 0) =
      fun i ↦ if i < NADDR then (triple dp (off + 12 + 3 * i) : ℤ) else 0 := by
    funext i
    split
    · rename_i hi
      rw [haddr i hi]
    · rfl
  unfold iexpand
  rw [hmode, hnlink, huid, hgid, hsize, haddrs]

theorem store_apply_of_lt {k : ℕ} (h : k < 12) : ip.store dp off (off + k) =
    setLong (setShort (setShort (setShort (setShort dp off ip.iMode) (off + 2) ip.iNlink) (off + 4) ip.iUid) (off + 6)
      ip.iGid) (off + 8) ip.iSize (off + k) := setTriples_apply_of_apart (by omega)

theorem ushort_store (ip : Inode) (dp : Buffer) (off : ℕ) : ushort (ip.store dp off) off = ip.iMode % 65536 := by
  have hfirst : ip.store dp off (off + 0) = _ := store_apply_of_lt (by decide)
  have hsecond : ip.store dp off (off + 1) = _ := store_apply_of_lt (by decide)
  rw [Nat.add_zero] at hfirst
  have hvalue : (ushort (setShort dp off ip.iMode) off : ℤ) = ip.iMode % 65536 := ushort_setShort
  rw [ushort_congr hfirst hsecond, ushort_setLong_of_apart (by omega), ushort_setShort_of_apart (by omega),
    ushort_setShort_of_apart (by omega), ushort_setShort_of_apart (by omega)]
  omega

/-- An inode that `iupdat` wrote is read back as it was. -/
theorem iexpand_store (h : ip.Fits) (dp : Buffer) (off : ℕ) :
    iexpand ip.iNumber (ip.store dp off) off = { ip with due := false } := by
  have hlow (k : ℕ) (hk : k < 12) := @store_apply_of_lt ip dp off k hk
  have hmode : ushort (ip.store dp off) off = ip.iMode := (ushort_store ip dp off).trans (Nat.mod_eq_of_lt h.mode)
  have hnlink : short (ip.store dp off) (off + 2) = ip.iNlink := by
    rw [short_congr (hlow 2 (by decide)) (hlow 3 (by decide)), short_setLong_of_apart (by omega),
      short_setShort_of_apart (by omega), short_setShort_of_apart (by omega), short_setShort h.nlink]
  have huid : short (ip.store dp off) (off + 4) = ip.iUid := by
    rw [short_congr (hlow 4 (by decide)) (hlow 5 (by decide)), short_setLong_of_apart (by omega),
      short_setShort_of_apart (by omega), short_setShort h.uid]
  have hgid : short (ip.store dp off) (off + 6) = ip.iGid := by
    rw [short_congr (hlow 6 (by decide)) (hlow 7 (by decide)), short_setLong_of_apart (by omega), short_setShort h.gid]
  have hsize : long (ip.store dp off) (off + 8) = ip.iSize := by
    have hbytes (k : ℕ) (hk : k < 4) := hlow (8 + k) (by omega)
    rw [← @long_setLong (setShort (setShort (setShort (setShort dp off ip.iMode) (off + 2) ip.iNlink) (off + 4) ip.iUid)
      (off + 6) ip.iGid) (off + 8) ip.iSize h.size]
    refine long_congr fun k hk ↦ ?_
    rw [Nat.add_assoc]
    exact hbytes k hk
  have haddr : (fun i ↦ if i < NADDR then (triple (ip.store dp off) (off + 12 + 3 * i) : ℤ) else 0) = ip.iAddr := by
    funext i
    split
    · rename_i hi
      exact triple_setTriples h.addr hi
    · rename_i hi
      exact (h.beyond i (not_lt.mp hi)).symm
  unfold iexpand
  rw [hmode, hnlink, huid, hgid, hsize, haddr]

/-- The inodes of a block do not overlap. -/
theorem iexpand_store_of_apart (ino : ℕ) (h : off' + 64 ≤ off ∨ off + 64 ≤ off') :
    iexpand ino (ip.store dp off) off' = iexpand ino dp off' :=
  iexpand_congr ino fun i hi ↦ store_apply_of_apart (by omega)

end RoundTrip

end S8000.Filsys
