import S8000.Dump.Record
import Mathlib.Data.List.GetD
import Mathlib.Algebra.BigOperators.Group.List.Basic

namespace S8000.Dump

open Foundation.Bytes

def magic : ℕ := 60011
def checksum : ℕ := 84446 &&& 0xFFFF

def tsTape : ℤ := 1
def tsInode : ℤ := 2
def tsBits : ℤ := 3
def tsAddr : ℤ := 4
def tsEnd : ℤ := 5
def tsClri : ℤ := 6

/-- The big-endian word at offset `o`. -/
def be16 (b : List Byte) (o : ℕ) : Word := word (b.getD o 0) (b.getD (o + 1) 0)

def be32 (b : List Byte) (o : ℕ) : BitVec 32 := be16 b o ++ be16 b (o + 2)

def words : List Byte → List Word
  | h :: l :: b => word h l :: words b
  | _ => []

def wordSum (b : List Byte) : ℕ := ((words b).map BitVec.toNat).sum

structure Header where
  type : ℤ
  date : ℕ
  ddate : ℕ
  volume : ℤ
  tapea : ℕ
  inum : ℕ
deriving DecidableEq

def parseHeader (r : Record) : Option Header :=
  if (be16 r.bytes 18).toNat ≠ magic ∨ wordSum r.bytes &&& 0xFFFF ≠ checksum then none
  else some
    { type := (be16 r.bytes 0).toInt
      date := (be32 r.bytes 2).toNat
      ddate := (be32 r.bytes 6).toNat
      volume := (be16 r.bytes 10).toInt
      tapea := (be32 r.bytes 12).toNat
      inum := (be16 r.bytes 16).toNat }

/-- `rdev` is absent from the entries that `adopt_orphans` invents. -/
structure Dinode where
  mode : ℕ
  nlink : ℤ
  uid : ℤ
  gid : ℤ
  size : ℕ
  atime : ℕ
  mtime : ℕ
  ctime : ℕ
  rdev : Option ℕ
deriving DecidableEq

def parseDinode (b : List Byte) : Dinode where
  mode := (be16 b 0).toNat
  nlink := (be16 b 2).toInt
  uid := (be16 b 4).toInt
  gid := (be16 b 6).toInt
  size := (be32 b 8).toNat
  atime := (be32 b 52).toNat
  mtime := (be32 b 56).toNat
  ctime := (be32 b 60).toNat
  rdev := some ((b.getD 12 0).toNat * 65536 + (be16 b 13).toNat)

/-- The dinode a `TS_INODE` header carries, `r[22:86]`. -/
def Record.dinode (r : Record) : Dinode := parseDinode ((r.bytes.drop 22).take 64)

/-- The block map a header carries, `r[88:88 + cnt]` with its signed count. -/
def Record.addrMap (r : Record) : List Byte :=
  slice r.bytes 88 (88 + (be16 r.bytes 86).toInt)

/-- The `spcl` structure of the dump format; `encode` lays it out with its magic number and
the checksum that makes the words of the record add up. -/
structure Spcl where
  type : Word
  date : BitVec 32
  ddate : BitVec 32
  volume : Word
  tapea : BitVec 32
  inumber : Word
  dinode : List Byte
  count : Word
  addr : List Byte
  dinode_length : dinode.length = 64
  addr_length : addr.length = 424

namespace Spcl

def wordBytes (w : Word) : List Byte := [high w, low w]

/-- The fields before the checksum: type, dates, volume, record number, inode and magic. -/
def front (s : Spcl) : List Byte :=
  [high s.type, low s.type,
    high (s.date.extractLsb' 16 16), low (s.date.extractLsb' 16 16),
    high (s.date.extractLsb' 0 16), low (s.date.extractLsb' 0 16),
    high (s.ddate.extractLsb' 16 16), low (s.ddate.extractLsb' 16 16),
    high (s.ddate.extractLsb' 0 16), low (s.ddate.extractLsb' 0 16),
    high s.volume, low s.volume,
    high (s.tapea.extractLsb' 16 16), low (s.tapea.extractLsb' 16 16),
    high (s.tapea.extractLsb' 0 16), low (s.tapea.extractLsb' 0 16),
    high s.inumber, low s.inumber,
    high (BitVec.ofNat 16 magic), low (BitVec.ofNat 16 magic)]

def layout (s : Spcl) (check : Word) : List Byte :=
  s.front ++ (wordBytes check ++ (s.dinode ++ (wordBytes s.count ++ s.addr)))

def check (s : Spcl) : Word :=
  BitVec.ofNat 16 checksum - BitVec.ofNat 16 (wordSum (s.layout 0#16))

def encode (s : Spcl) : Record where
  bytes := s.layout s.check
  length_eq := by
    simp [layout, front, wordBytes, s.dinode_length, s.addr_length, recordSize]

def header (s : Spcl) : Header where
  type := s.type.toInt
  date := s.date.toNat
  ddate := s.ddate.toNat
  volume := s.volume.toInt
  tapea := s.tapea.toNat
  inum := s.inumber.toNat

theorem words_append (a b : List Byte) (h : a.length % 2 = 0) :
    words (a ++ b) = words a ++ words b := by
  induction a using words.induct with
  | case1 x y a ih =>
    simp only [List.cons_append, words]
    rw [ih (by simp only [List.length_cons] at h; omega)]
  | case2 a ha => match a, ha with
    | [], _ => rfl
    | [x], _ => simp at h
    | x :: y :: a, ha => exact absurd rfl (ha x y a)

theorem wordSum_append (a b : List Byte) (h : a.length % 2 = 0) :
    wordSum (a ++ b) = wordSum a + wordSum b := by
  simp [wordSum, words_append a b h]

theorem wordSum_wordBytes (w : Word) : wordSum (wordBytes w) = w.toNat := by
  simp [wordSum, wordBytes, words]

theorem length_front (s : Spcl) : s.front.length = 20 := rfl

theorem wordSum_layout (s : Spcl) (c : Word) :
    wordSum (s.layout c) = wordSum (s.layout 0#16) + c.toNat := by
  have hsum : ∀ c, wordSum (s.layout c) = wordSum s.front +
      (c.toNat + wordSum (s.dinode ++ (wordBytes s.count ++ s.addr))) := fun c ↦ by
    rw [layout, wordSum_append _ _ (by rw [length_front]),
      wordSum_append _ _ (by simp [wordBytes]),
      wordSum_wordBytes]
  rw [hsum c, hsum 0#16, BitVec.toNat_zero]
  omega

/-- The encoded record adds up to the checksum constant. -/
theorem wordSum_encode (s : Spcl) : wordSum s.encode.bytes &&& 0xFFFF = checksum := by
  rw [show (0xFFFF : ℕ) = 2 ^ 16 - 1 by rfl, Nat.and_two_pow_sub_one_eq_mod]
  change wordSum (s.layout s.check) % 2 ^ 16 = checksum
  rw [wordSum_layout, check, BitVec.toNat_sub, BitVec.toNat_ofNat, BitVec.toNat_ofNat]
  have hc : checksum < 2 ^ 16 := by decide
  omega

theorem getD_layout (s : Spcl) (c : Word) (o : ℕ) (ho : o < 20) (d : Byte) :
    (s.layout c).getD o d = s.front.getD o d :=
  List.getD_append _ _ _ _ ho

theorem parseHeader_encode (s : Spcl) : parseHeader s.encode = some s.header := by
  have hmagic : (be16 s.encode.bytes 18).toNat = magic := by
    change (be16 (s.layout s.check) 18).toNat = magic
    rw [be16, getD_layout _ _ _ (by decide), getD_layout _ _ _ (by decide)]
    simp [front, magic]
  rw [parseHeader, if_neg (by rw [not_or, not_not, not_not]; exact ⟨hmagic, s.wordSum_encode⟩)]
  change some (Header.mk (be16 (s.layout s.check) 0).toInt (be32 (s.layout s.check) 2).toNat
    (be32 (s.layout s.check) 6).toNat (be16 (s.layout s.check) 10).toInt
    (be32 (s.layout s.check) 12).toNat (be16 (s.layout s.check) 16).toNat) = some s.header
  simp only [be32, be16, getD_layout, front, Nat.reduceAdd, Nat.reduceLT, List.getD_cons_zero,
    List.getD_cons_succ, word_high_low, extractLsb'_append]
  rfl

theorem dinode_encode (s : Spcl) : s.encode.dinode = parseDinode s.dinode := by
  have hp : (s.front ++ wordBytes s.check).length = 22 := rfl
  change parseDinode (((s.layout s.check).drop 22).take 64) = _
  rw [layout, ← List.append_assoc, ← hp, List.drop_left, ← s.dinode_length, List.take_left]

theorem addrMap_encode (s : Spcl) (h : s.count.toNat ≤ 424) :
    s.encode.addrMap = s.addr.take s.count.toNat := by
  have hlen : (s.front ++ wordBytes s.check ++ s.dinode).length = 86 := by
    rw [List.length_append, s.dinode_length]
    rfl
  have he : s.layout s.check =
      (s.front ++ wordBytes s.check ++ s.dinode) ++ (wordBytes s.count ++ s.addr) := by
    simp only [layout, List.append_assoc]
  have hcount : be16 (s.layout s.check) 86 = s.count := by
    rw [he, be16, List.getD_append_right _ _ _ 86 (by rw [hlen]),
      List.getD_append_right (s.front ++ wordBytes s.check ++ s.dinode) _ _ (86 + 1)
        (by omega), hlen]
    simp [wordBytes]
  have hint : s.count.toInt = s.count.toNat := by
    rw [BitVec.toInt_eq_toNat_cond, if_pos (by omega)]
  have hdrop : (s.layout s.check).drop 88 = s.addr := by
    have h88 : ((s.front ++ wordBytes s.check ++ s.dinode) ++ wordBytes s.count).length = 88 := by
      rw [List.length_append, hlen]
      rfl
    rw [he, ← List.append_assoc, ← h88, List.drop_left]
  have hslice := slice_nat (s.layout s.check) 88 s.count.toNat
  push_cast at hslice
  change slice (s.layout s.check) 88 (88 + (be16 (s.layout s.check) 86).toInt) = _
  rw [hcount, hint, hslice, hdrop]

end Spcl

end S8000.Dump
