import S8000.Dump.Parse
import Mathlib.Data.List.GetD

namespace S8000.Dump

open Foundation Foundation.Bytes

/-- A header with the part of the block map it carries: one slot for each map byte, with
the data record that follows the header when the byte is not zero. -/
structure Segment where
  spcl : Spcl
  slots : List (Option Record)
  count_eq : spcl.count.toNat = slots.length
  length_le : slots.length ≤ 424
  mark : ∀ i (h : i < slots.length), spcl.addr.getD i 0 = 0 ↔ slots[i] = none
  data_not_header : ∀ r, some r ∈ slots → parseHeader r = none

namespace Segment

def records (s : Segment) : List Record := s.spcl.encode :: s.slots.filterMap id

theorem length_map (s : Segment) : s.spcl.encode.addrMap.length = s.slots.length := by
  rw [Spcl.addrMap_encode _ (by rw [s.count_eq]; exact s.length_le), List.length_take,
    s.spcl.addr_length, s.count_eq]
  have := s.length_le
  omega

theorem map_eq_zero_iff (s : Segment) (i : ℕ) (h : i < s.slots.length) :
    s.spcl.encode.addrMap.getD i 0 = 0 ↔ s.slots[i] = none := by
  rw [← s.mark i h, Spcl.addrMap_encode _ (by rw [s.count_eq]; exact s.length_le),
    List.getD_eq_getElem?_getD, List.getElem?_take, if_pos (by rw [s.count_eq]; exact h),
    ← List.getD_eq_getElem?_getD]

/-- A segment with a one in its map for every block present, and all dates zero. -/
def write (type inumber : Word) (dinode : List Byte) (hd : dinode.length = 64)
    (slots : List (Option Record)) (hl : slots.length ≤ 424)
    (hr : ∀ r, some r ∈ slots → parseHeader r = none) : Segment where
  spcl :=
    { type := type
      date := 0
      ddate := 0
      volume := 1
      tapea := 0
      inumber := inumber
      dinode := dinode
      count := BitVec.ofNat 16 slots.length
      addr := slots.map (fun o ↦ if o.isSome then 1#8 else 0#8) ++
        List.replicate (424 - slots.length) 0
      dinode_length := hd
      addr_length := by
        rw [List.length_append, List.length_map, List.length_replicate]
        omega }
  slots := slots
  count_eq := by
    rw [BitVec.toNat_ofNat, Nat.mod_eq_of_lt (by omega)]
  length_le := hl
  mark := by
    intro i h
    rw [List.getD_append _ _ _ _ (by rw [List.length_map]; exact h),
      List.getD_eq_getElem _ _ (by rw [List.length_map]; exact h), List.getElem_map]
    cases slots[i] <;> simp
  data_not_header := hr

end Segment

/-- An inode as the dump writes it: a `TS_INODE` segment and its `TS_ADDR` continuations. -/
structure DumpFile where
  first : Segment
  rest : List Segment
  first_type : first.spcl.type.toInt = tsInode
  rest_type : ∀ s ∈ rest, s.spcl.type.toInt = tsAddr

namespace DumpFile

def inum (f : DumpFile) : ℕ := f.first.spcl.inumber.toNat

def dinode (f : DumpFile) : Dinode := parseDinode f.first.spcl.dinode

def segments (f : DumpFile) : List Segment := f.first :: f.rest

def records (f : DumpFile) : List Record := f.segments.flatMap Segment.records

/-- The logical blocks of the file, holes included. -/
def blocks (f : DumpFile) : List (Option Record) := f.segments.flatMap Segment.slots

/-- The bytes of the file: its size, with holes read as zeros. -/
def contents (f : DumpFile) : List Byte :=
  ((List.range ((f.dinode.size + 511) / 512)).flatMap fun lb ↦
    ((f.blocks.getD lb none).map Record.bytes).getD (List.replicate 512 0)).take f.dinode.size

end DumpFile

/-- A `TS_CLRI` or `TS_BITS` header and the bit map records behind it. -/
structure BitMap where
  spcl : Spcl
  maps : List Record
  type_eq : spcl.type.toInt = tsClri ∨ spcl.type.toInt = tsBits
  map_not_header : ∀ r ∈ maps, parseHeader r = none

def BitMap.records (m : BitMap) : List Record := m.spcl.encode :: m.maps

/-- A complete dump: the volume header, the bit maps, the inodes and the end records. -/
structure Stream where
  volume : Spcl
  bitMaps : List BitMap
  files : List DumpFile
  ends : List Spcl
  volume_type : volume.type.toInt = tsTape
  ends_type : ∀ s ∈ ends, s.type.toInt = tsEnd
  nodup_inums : (files.map DumpFile.inum).Nodup

namespace Stream

def records (s : Stream) : List Record :=
  s.volume.encode :: (s.bitMaps.flatMap BitMap.records ++
    (s.files.flatMap DumpFile.records ++ s.ends.map Spcl.encode))

end Stream

/-- The tape map of a complete sequence of records. -/
def tapeOf (rs : List Record) : Dict ℕ Record := numbered ∅ 0 rs

theorem get?_tapeOf (rs : List Record) (m : ℕ) : (tapeOf rs).get? m = rs[m]? := by
  rw [tapeOf, get?_numbered]
  by_cases h : m < rs.length
  · rw [if_pos (by omega), Nat.sub_zero]
  · rw [if_neg (by omega), Dict.get?_empty, List.getElem?_eq_none (by omega)]

theorem max?_keys_tapeOf (rs : List Record) (h : rs ≠ []) :
    (tapeOf rs).keys.max? = some (rs.length - 1) := by
  have hlen := List.length_pos_iff.mpr h
  have hmem : ∀ m, m ∈ (tapeOf rs).keys ↔ m < rs.length := fun m ↦ by
    rw [Dict.mem_keys, Dict.mem_def, get?_tapeOf, ne_eq, List.getElem?_eq_none_iff, not_le]
  rw [List.max?_eq_some_iff]
  exact ⟨(hmem _).mpr (by omega), fun m hm ↦ by
    have := (hmem m).mp hm
    omega⟩

/-- The loop over a complete tape is a fold over its records. -/
theorem walkTo_tapeOf (rs : List Record) :
    walkTo (tapeOf rs) rs.length = ((rs.map some).zipIdx).foldl Walk.step {} := by
  have hmap : (List.range rs.length).map (tapeOf rs).get? = rs.map some := by
    apply List.ext_getElem (by simp)
    intro i hi _
    simp only [List.length_map, List.length_range] at hi
    simp [get?_tapeOf, hi]
  rw [walkTo, hmap]

theorem parse_tapeOf (rs : List Record) (h : rs ≠ []) :
    parse (tapeOf rs) = some
      { tapehdr := (((rs.map some).zipIdx).foldl Walk.step {}).tapehdr
        inodes := (((rs.map some).zipIdx).foldl Walk.step {}).inodes
        blocks := (((rs.map some).zipIdx).foldl Walk.step {}).blocks
        order := (((rs.map some).zipIdx).foldl Walk.step {}).order
        missing := []
        orphans := (((rs.map some).zipIdx).foldl Walk.step {}).orphans } := by
  have hlen := List.length_pos_iff.mpr h
  have hlast : rs.length - 1 + 1 = rs.length := by omega
  have hmissing : (List.range rs.length).filter (· ∉ tapeOf rs) = [] := by
    rw [List.filter_eq_nil_iff]
    intro m hm
    rw [decide_eq_true_eq, not_not, Dict.mem_def, get?_tapeOf, ne_eq, List.getElem?_eq_none_iff]
    simpa using hm
  rw [parse, max?_keys_tapeOf rs h]
  simp only [Option.map_some, hlast, walkTo_tapeOf, hmissing]

end S8000.Dump
