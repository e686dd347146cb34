import S8000.Foundation.Bytes
import Mathlib.Logic.Function.Basic
import Mathlib.Data.List.GetD

/-! Byte memories with 16-bit addresses that wrap. -/

namespace S8000.Foundation

open Bytes

abbrev Memory := Word → Byte

namespace Memory

def store (mem : Memory) (a : Word) (b : Byte) : Memory := Function.update mem a b

/-- Consecutive bytes from an address on. -/
def storeList (mem : Memory) (a : Word) : List Byte → Memory
  | [] => mem
  | b :: bytes => storeList (mem.store a b) (a + 1) bytes

/-- The word at an address, most significant byte first. -/
def readWord (mem : Memory) (a : Word) : Word := word (mem a) (mem (a + 1))

def writeWord (mem : Memory) (a : Word) (v : Word) : Memory :=
  (mem.store a (high v)).store (a + 1) (low v)

@[simp] theorem store_self (mem : Memory) (a : Word) (b : Byte) : mem.store a b a = b := by
  simp [store]

theorem store_of_ne (mem : Memory) {a x : Word} (b : Byte) (h : x ≠ a) :
    mem.store a b x = mem x := by
  simp [store, h]

theorem toNat_sub_succ {x a : Word} (h : x ≠ a) : (x - a).toNat = (x - (a + 1)).toNat + 1 := by
  bv_omega

/-- What is behind `storeList`: the bytes by their distance from the first address. -/
theorem storeList_apply (mem : Memory) (a : Word) (bytes : List Byte)
    (hlen : bytes.length ≤ 65536) (x : Word) :
    mem.storeList a bytes x = bytes.getD (x - a).toNat (mem x) := by
  induction bytes generalizing mem a with
  | nil => rfl
  | cons b bytes ih =>
    rw [List.length_cons] at hlen
    rw [storeList, ih _ _ (by omega)]
    by_cases hx : x = a
    · subst hx
      have hlast : (x - (x + 1)).toNat = 65535 := by bv_omega
      rw [hlast, List.getD_eq_default _ _ (by omega), store_self, BitVec.sub_self]
      rfl
    · rw [toNat_sub_succ hx, List.getD_cons_succ, store_of_ne _ _ hx]

theorem storeList_outside (mem : Memory) {a x : Word} {bytes : List Byte}
    (h : bytes.length ≤ (x - a).toNat) : mem.storeList a bytes x = mem x := by
  have hx := (x - a).isLt
  rw [storeList_apply _ _ _ (by omega), List.getD_eq_default _ _ h]

theorem storeList_append (mem : Memory) (a : Word) (b c : List Byte) :
    mem.storeList a (b ++ c) = (mem.storeList a b).storeList (a + BitVec.ofNat 16 b.length) c := by
  induction b generalizing mem a with
  | nil => simp [storeList]
  | cons x b ih =>
    have hadd : a + 1 + BitVec.ofNat 16 b.length = a + BitVec.ofNat 16 (b.length + 1) := by
      rw [BitVec.ofNat_add, BitVec.add_assoc, BitVec.add_comm 1]
      rfl
    rw [List.cons_append, storeList, ih, storeList, List.length_cons, hadd]

/-- The bytes of a stored list, read back in place. -/
theorem storeList_add (mem : Memory) (a : Word) (bytes : List Byte) (hlen : bytes.length ≤ 65536)
    {i : ℕ} (hi : i < bytes.length) :
    mem.storeList a bytes (a + BitVec.ofNat 16 i) = bytes.getD i 0 := by
  have hsub : (a + BitVec.ofNat 16 i - a).toNat = i := by
    rw [BitVec.add_comm, BitVec.add_sub_cancel, BitVec.toNat_ofNat, Nat.mod_eq_of_lt (by omega)]
  rw [storeList_apply _ _ _ hlen, hsub, List.getD_eq_getElem _ _ hi, List.getD_eq_getElem _ _ hi]

theorem readWord_writeWord (mem : Memory) (a : Word) (v : Word) :
    (mem.writeWord a v).readWord a = v := by
  have hne : a ≠ a + 1 := by bv_omega
  rw [readWord, writeWord, store_self, store_of_ne _ _ hne, store_self, word_high_low]

/-- Words apart from each other do not meet. -/
theorem readWord_writeWord_of_apart (mem : Memory) {a x : Word} (v : Word)
    (h : 2 ≤ (x - a).toNat) (h' : 2 ≤ (a - x).toNat) :
    (mem.writeWord a v).readWord x = mem.readWord x := by
  have h0 : x ≠ a := by bv_omega
  have h1 : x ≠ a + 1 := by bv_omega
  have h2 : x + 1 ≠ a := by bv_omega
  have h3 : x + 1 ≠ a + 1 := by bv_omega
  rw [readWord, readWord, writeWord, store_of_ne _ _ h1, store_of_ne _ _ h0, store_of_ne _ _ h3,
    store_of_ne _ _ h2]

theorem readWord_congr {mem mem' : Memory} {a : Word} (h : mem a = mem' a)
    (h' : mem (a + 1) = mem' (a + 1)) : mem.readWord a = mem'.readWord a := by
  rw [readWord, readWord, h, h']

end Memory

end S8000.Foundation
