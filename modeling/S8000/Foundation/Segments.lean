import S8000.Foundation.Memory

/-! Physical memories of segments with 64 KiB each, and stores that stay in one segment. -/

namespace S8000.Foundation.Segments

open Function Bytes

variable {w : ℕ}

def segmentOf (w a : ℕ) : BitVec w := BitVec.ofNat w (a / 65536)

def offsetOf (a : ℕ) : Word := BitVec.ofNat 16 a

/-- A string stored in the segment of its first byte. -/
def storeBlock (a : ℕ) (phys : BitVec w → Memory) (bytes : List Byte) : BitVec w → Memory :=
  update phys (segmentOf w a) ((phys (segmentOf w a)).storeList (offsetOf a) bytes)

/-- Strings stored one behind the other. -/
def storeBlocks (a : ℕ) (phys : BitVec w → Memory) : List (List Byte) → BitVec w → Memory
  | [] => phys
  | bytes :: pieces => storeBlocks (a + bytes.length) (storeBlock a phys bytes) pieces

/-- One of the strings goes on behind the end of a segment. -/
def Straddles (a : ℕ) : List (List Byte) → Prop
  | [] => False
  | bytes :: pieces => 65536 < a % 65536 + bytes.length ∨ Straddles (a + bytes.length) pieces

/-- Byte `k` of a string is at the linear address `a + k`, and nothing else has changed. -/
structure Linear (a : ℕ) (bytes : List Byte) (phys phys' : BitVec w → Memory) : Prop where
  stored : ∀ k < bytes.length, phys' (segmentOf w (a + k)) (offsetOf (a + k)) = bytes.getD k 0
  others : ∀ s x, (∀ k < bytes.length, s = segmentOf w (a + k) → x ≠ offsetOf (a + k)) →
    phys' s x = phys s x

theorem storeBlocks_concat (a : ℕ) (phys : BitVec w → Memory) (pieces : List (List Byte))
    (bytes : List Byte) :
    storeBlocks a phys (pieces ++ [bytes]) =
      storeBlock (a + pieces.flatten.length) (storeBlocks a phys pieces) bytes := by
  induction pieces generalizing a phys with
  | nil => rfl
  | cons piece pieces ih =>
    rw [List.cons_append, storeBlocks, ih, storeBlocks, List.flatten_cons, List.length_append,
      Nat.add_assoc]

theorem segmentOf_add {a k : ℕ} (h : a % 65536 + k < 65536) : segmentOf w (a + k) = segmentOf w a := by
  rw [segmentOf, segmentOf]
  congr 1
  omega

theorem offsetOf_add (a k : ℕ) : offsetOf (a + k) = offsetOf a + BitVec.ofNat 16 k :=
  BitVec.ofNat_add a k

theorem eq_of_offsetOf_eq {a b : ℕ} (h : offsetOf a = offsetOf b) (hab : a ≤ b)
    (hspan : b < a + 65536) : a = b := by
  have hnat := congrArg BitVec.toNat h
  simp only [offsetOf, BitVec.toNat_ofNat] at hnat
  omega

theorem segmentOf_next (hw : 0 < w) {a : ℕ} {b : ℕ} (h : b / 65536 = a / 65536 + 1) :
    segmentOf w b ≠ segmentOf w a := by
  intro heq
  have hnat := congrArg BitVec.toNat heq
  simp only [segmentOf, h, BitVec.toNat_ofNat] at hnat
  have hpow : 2 ≤ 2 ^ w := Nat.le_self_pow (by omega) 2
  have hone := Nat.sub_mod_eq_zero_of_mod_eq hnat
  rw [Nat.add_sub_cancel_left, Nat.mod_eq_of_lt (by omega)] at hone
  cases hone

/-- A string that ends in the segment where it begins. -/
theorem linear_storeBlock {a : ℕ} (phys : BitVec w → Memory) {bytes : List Byte}
    (h : a % 65536 + bytes.length ≤ 65536) : Linear a bytes phys (storeBlock a phys bytes) where
  stored := by
    intro k hk
    rw [storeBlock, segmentOf_add (by omega), update_self, offsetOf_add,
      Memory.storeList_add _ _ _ (by omega) hk]
  others := by
    intro s x hx
    rw [storeBlock]
    by_cases hs : s = segmentOf w a
    · subst hs
      rw [update_self]
      apply Memory.storeList_outside
      by_contra hlt
      -- The distance of `x` from the first byte is the number of a byte.
      have hk : (x - offsetOf a).toNat < bytes.length := by omega
      apply hx _ hk
      · exact (segmentOf_add (by omega)).symm
      · rw [offsetOf_add, BitVec.ofNat_toNat, BitVec.setWidth_eq, BitVec.add_comm,
          BitVec.sub_add_cancel]
    · rw [update_of_ne hs]

theorem Linear.append {a : ℕ} {bytes bytes' : List Byte} {phys phys' phys'' : BitVec w → Memory}
    (h : Linear a bytes phys phys') (h' : Linear (a + bytes.length) bytes' phys' phys'')
    (hlen : bytes.length + bytes'.length ≤ 65536) : Linear a (bytes ++ bytes') phys phys'' where
  stored := by
    intro k hk
    rw [List.length_append] at hk
    by_cases hk' : k < bytes.length
    · rw [List.getD_append _ _ _ _ hk', ← h.stored k hk']
      refine h'.others _ _ fun j hj _ heq ↦ ?_
      have := eq_of_offsetOf_eq heq (by omega) (by omega)
      omega
    · rw [List.getD_append_right _ _ _ _ (by omega), ← h'.stored _ (by omega : k - bytes.length < _)]
      congr 2 <;> omega
  others := by
    intro s x hx
    rw [List.length_append] at hx
    have hleft : phys' s x = phys s x := h.others s x fun k hk ↦ hx k (by omega)
    rw [← hleft]
    refine h'.others s x fun k hk ↦ ?_
    rw [Nat.add_assoc]
    exact hx _ (by omega)

theorem linear_storeBlocks {a : ℕ} (phys : BitVec w → Memory) {pieces : List (List Byte)}
    (hlen : pieces.flatten.length ≤ 65536) (h : ¬ Straddles a pieces) :
    Linear a pieces.flatten phys (storeBlocks a phys pieces) := by
  induction pieces generalizing a phys with
  | nil => exact ⟨fun k hk ↦ absurd hk (Nat.not_lt_zero k), fun _ _ _ ↦ rfl⟩
  | cons bytes pieces ih =>
    rw [Straddles, not_or] at h
    rw [List.flatten_cons, List.length_append] at hlen
    exact (linear_storeBlock phys (by omega)).append (ih _ (by omega) h.2) hlen

theorem not_straddles {a : ℕ} {pieces : List (List Byte)}
    (h : a % 65536 + pieces.flatten.length ≤ 65536) : ¬ Straddles a pieces := by
  induction pieces generalizing a with
  | nil => exact fun h' ↦ h'
  | cons bytes pieces ih =>
    rw [List.flatten_cons, List.length_append] at h
    rw [Straddles, not_or]
    exact ⟨by omega, ih (by omega)⟩

/-- Behind the beginning of a segment nothing reaches it again. -/
theorem storeBlocks_behind {a b : ℕ} (phys : BitVec w → Memory) {pieces : List (List Byte)}
    (hb : b % 65536 = 0) (hba : b < a) (hlen : a + pieces.flatten.length ≤ b + 65536) :
    storeBlocks a phys pieces (segmentOf w b) (offsetOf b) =
      phys (segmentOf w b) (offsetOf b) := by
  induction pieces generalizing a phys with
  | nil => rfl
  | cons bytes pieces ih =>
    rw [List.flatten_cons, List.length_append] at hlen
    rw [storeBlocks, ih _ (by omega) (by omega), storeBlock]
    by_cases hs : segmentOf w b = segmentOf w a
    · rw [hs, update_self]
      apply Memory.storeList_outside
      have hdist : (offsetOf b - offsetOf a).toNat = (65536 - a % 65536) % 65536 := by
        simp only [offsetOf, BitVec.toNat_sub, BitVec.toNat_ofNat]
        omega
      omega
    · rw [update_of_ne hs]

/-- The beginning of a segment is missed by a string that goes on into it. -/
theorem storeBlocks_straddling (hw : 0 < w) {a : ℕ} (phys : BitVec w → Memory)
    {pieces : List (List Byte)} (hlen : pieces.flatten.length ≤ 65536) (h : Straddles a pieces) :
    (a / 65536 + 1) * 65536 < a + pieces.flatten.length ∧
      storeBlocks a phys pieces (segmentOf w ((a / 65536 + 1) * 65536))
        (offsetOf ((a / 65536 + 1) * 65536)) =
      phys (segmentOf w ((a / 65536 + 1) * 65536)) (offsetOf ((a / 65536 + 1) * 65536)) := by
  induction pieces generalizing a phys with
  | nil => exact h.elim
  | cons bytes pieces ih =>
    rw [List.flatten_cons, List.length_append] at hlen ⊢
    have hsegment : segmentOf w ((a / 65536 + 1) * 65536) ≠ segmentOf w a :=
      segmentOf_next hw (by omega)
    have hmiss : storeBlock a phys bytes (segmentOf w ((a / 65536 + 1) * 65536)) =
        phys (segmentOf w ((a / 65536 + 1) * 65536)) := by
      rw [storeBlock, update_of_ne hsegment]
    by_cases hstraddle : 65536 < a % 65536 + bytes.length
    · refine ⟨by omega, ?_⟩
      rw [storeBlocks, storeBlocks_behind _ (by omega) (by omega) (by omega), hmiss]
    · have hrest : Straddles (a + bytes.length) pieces := h.resolve_left hstraddle
      obtain ⟨hend, hkept⟩ := ih (storeBlock a phys bytes) (by omega) hrest
      -- The boundary is still ahead, or the rest would be longer than a segment.
      have hboundary : (a + bytes.length) / 65536 = a / 65536 := by omega
      rw [hboundary] at hend hkept
      refine ⟨by omega, ?_⟩
      rw [storeBlocks, hkept, hmiss]

/-- Strings that together fill less than a segment are stored linearly, whatever was there before,
exactly when none of them straddles. -/
theorem linear_storeBlocks_iff (hw : 0 < w) {a : ℕ} {pieces : List (List Byte)}
    (hlen : pieces.flatten.length ≤ 65536) :
    (∀ phys : BitVec w → Memory, Linear a pieces.flatten phys (storeBlocks a phys pieces)) ↔
      ¬ Straddles a pieces := by
  refine ⟨fun hlinear hstraddle ↦ ?_, fun h phys ↦ linear_storeBlocks phys hlen h⟩
  -- A memory of bytes that differ from the one the beginning of the segment is to receive.
  let k := (a / 65536 + 1) * 65536 - a
  let phys : BitVec w → Memory := fun _ _ ↦ pieces.flatten.getD k 0 + 1
  obtain ⟨hend, hkept⟩ := storeBlocks_straddling hw phys hlen hstraddle
  have hk : a + k = (a / 65536 + 1) * 65536 := by
    simp only [k]
    omega
  have hbyte := (hlinear phys).stored k (by omega)
  rw [hk, hkept] at hbyte
  have hne : pieces.flatten.getD k 0 + 1 ≠ pieces.flatten.getD k 0 := by bv_omega
  exact hne hbyte

end S8000.Foundation.Segments
