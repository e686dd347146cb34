import S8000.Dump.Complete

namespace S8000.Dump

open Foundation Foundation.Bytes Foundation.Holes

theorem blockAt_foldl_placeSegments (fs : List DumpFile) (hfs : (fs.map DumpFile.inum).Nodup)
    (b : Blocks) (ino lb : ℕ) :
    blockAt (fs.foldl (fun b f ↦ placeSegments b f.inum 0 (f.segments.map Segment.slots)) b)
        ino lb =
      match fs.find? (fun f ↦ f.inum = ino) with
      | some f => (entry ((f.segments.map Segment.slots).flatMap strip) lb).or (blockAt b ino lb)
      | none => blockAt b ino lb := by
  induction fs generalizing b with
  | nil => rfl
  | cons f fs ih =>
    obtain ⟨hf, hfs'⟩ := List.nodup_cons.mp hfs
    rw [List.foldl_cons, ih hfs', List.find?_cons]
    have hb := blockAt_placeSegments b f.inum 0 (f.segments.map Segment.slots) ino lb
    by_cases h : f.inum = ino
    · have hnone : fs.find? (fun f ↦ f.inum = ino) = none := by
        rw [List.find?_eq_none]
        intro g hg hgi
        rw [decide_eq_true_eq] at hgi
        exact hf (List.mem_map.mpr ⟨g, hg, hgi.trans h.symm⟩)
      rw [hnone, hb]
      simp [h]
    · have hb' : blockAt (placeSegments b f.inum 0 (f.segments.map Segment.slots)) ino lb =
          blockAt b ino lb := by
        rw [hb, if_neg (fun h' ↦ h h'.1), Option.none_or]
      rw [hb']
      simp [h]

theorem get?_foldl_set (fs : List DumpFile) (hfs : (fs.map DumpFile.inum).Nodup)
    (d : Inodes) (ino : ℕ) :
    (fs.foldl (fun d f ↦ d.set f.inum f.dinode) d).get? ino =
      match fs.find? (fun f ↦ f.inum = ino) with
      | some f => some f.dinode
      | none => d.get? ino := by
  induction fs generalizing d with
  | nil => rfl
  | cons f fs ih =>
    obtain ⟨hf, hfs'⟩ := List.nodup_cons.mp hfs
    rw [List.foldl_cons, ih hfs', List.find?_cons, Dict.get?_set]
    by_cases h : f.inum = ino
    · have hnone : fs.find? (fun f ↦ f.inum = ino) = none := by
        rw [List.find?_eq_none]
        intro g hg hgi
        rw [decide_eq_true_eq] at hgi
        exact hf (List.mem_map.mpr ⟨g, hg, hgi.trans h.symm⟩)
      rw [hnone]
      simp [h]
    · simp [h]

namespace Stream

variable (s : Stream)

theorem find?_inum {f : DumpFile} (hf : f ∈ s.files) :
    s.files.find? (fun g ↦ g.inum = f.inum) = some f := by
  have hsome : (s.files.find? (fun g ↦ g.inum = f.inum)).isSome := by
    rw [List.find?_isSome]
    exact ⟨f, hf, by simp⟩
  obtain ⟨g, hg⟩ := Option.isSome_iff_exists.mp hsome
  have hgi : g.inum = f.inum := by simpa using List.find?_some hg
  rw [hg, List.inj_on_of_nodup_map s.nodup_inums (List.mem_of_find?_eq_some hg) hf hgi]

theorem get?_inodes {f : DumpFile} (hf : f ∈ s.files) : s.inodes.get? f.inum = some f.dinode := by
  rw [inodes, get?_foldl_set _ s.nodup_inums, s.find?_inum hf]

theorem mem_inodes (ino : ℕ) : ino ∈ s.inodes ↔ ∃ f ∈ s.files, f.inum = ino := by
  rw [Dict.mem_def, inodes, get?_foldl_set _ s.nodup_inums]
  cases hf : s.files.find? (fun f ↦ f.inum = ino) with
  | none =>
    simp only [Dict.get?_empty, ne_eq, not_true_eq_false, false_iff, not_exists, not_and]
    intro f hf' hi
    exact List.find?_eq_none.mp hf f hf' (by simpa using hi)
  | some f =>
    simp only [ne_eq, reduceCtorEq, not_false_eq_true, true_iff]
    exact ⟨f, List.mem_of_find?_eq_some hf, by simpa using List.find?_some hf⟩

theorem blockAt_stored {f : DumpFile} (hf : f ∈ s.files) (lb : ℕ) :
    blockAt s.stored f.inum lb = entry ((f.segments.map Segment.slots).flatMap strip) lb := by
  rw [stored, blockAt_foldl_placeSegments _ s.nodup_inums, s.find?_inum hf]
  exact Option.or_none

end Stream

theorem DumpFile.blocks_eq (f : DumpFile) : f.blocks = (f.segments.map Segment.slots).flatten := by
  rw [blocks, List.flatMap_def]

/-- The decoder gives a dumped file back: every block at its place, and the bytes. -/
structure Restored (p : Parsed) (f : DumpFile) : Prop where
  placed : ∀ lb, blockAt p.blocks f.inum lb = entry f.blocks lb
  filedata_eq : filedata f.inum p.inodes p.blocks = some f.contents

theorem filedata_of_blocks {inodes : Inodes} {blocks : Blocks} {f : DumpFile}
    (hd : inodes.get? f.inum = some f.dinode)
    (hb : ∀ lb, blockAt blocks f.inum lb = entry f.blocks lb) :
    filedata f.inum inodes blocks = some f.contents := by
  have hentry : ∀ lb, f.blocks.getD lb none = entry f.blocks lb := fun lb ↦ by
    rw [entry, List.getD_eq_getElem?_getD]
    cases f.blocks[lb]? <;> rfl
  simp only [filedata, hd, Option.map_some, DumpFile.contents, hb, hentry]

/-- Every block is found at its place exactly when no part of the map that ends in a hole is
continued by a part with a block. -/
theorem placed_iff (s : Stream) {f : DumpFile} (hf : f ∈ s.files) :
    (∀ lb, blockAt s.stored f.inum lb = entry f.blocks lb) ↔
      Aligned (f.segments.map Segment.slots) := by
  rw [← entry_flatMap_strip_iff]
  simp only [s.blockAt_stored hf, f.blocks_eq]

theorem parse_undoes_dump (s : Stream) :
    (∃ p, parse (tapeOf s.records) = some p ∧ ∀ f ∈ s.files, Restored p f) ↔
      ∀ f ∈ s.files, Aligned (f.segments.map Segment.slots) := by
  obtain ⟨order, orphans, hparse, -⟩ := s.parse_records
  constructor
  · rintro ⟨p, hp, hr⟩ f hf
    obtain rfl := Option.some.inj (hparse.symm.trans hp)
    exact (placed_iff s hf).mp (hr f hf).placed
  · intro h
    refine ⟨_, hparse, fun f hf ↦ ?_⟩
    have hb := (placed_iff s hf).mpr (h f hf)
    exact ⟨hb, filedata_of_blocks (s.get?_inodes hf) hb⟩

/-- A record of one byte repeated, which is no header. -/
def filled (b : Byte) : Record := ⟨List.replicate recordSize b, List.length_replicate⟩

theorem parseHeader_filled (b : Byte) (h : (word b b).toNat ≠ magic) :
    parseHeader (filled b) = none := by
  rw [parseHeader, if_pos]
  left
  have hb : ∀ i, i < recordSize → (filled b).bytes.getD i 0 = b := fun i hi ↦ by
    rw [filled, List.getD_replicate _ hi]
  rwa [be16, hb _ (by decide), hb _ (by decide)]

theorem filled_not_header {b : Byte} (h : (word b b).toNat ≠ magic) {r : Record}
    {slots : List (Option Record)} (hslots : ∀ o ∈ slots, o = some (filled b) ∨ o = none)
    (hr : some r ∈ slots) : parseHeader r = none := by
  rcases hslots _ hr with he | he
  · rw [Option.some.inj he]
    exact parseHeader_filled b h
  · cases he

/-- A dinode of a regular file of three blocks. -/
def threeBlocks : List Byte :=
  [0x81, 0xA4, 0, 1, 0, 0, 0, 0, 0, 0, 6, 0] ++ List.replicate 52 0

theorem length_threeBlocks : threeBlocks.length = 64 := by decide

theorem filled_one_not_header (r : Record) (hr : some r ∈ [some (filled 1)]) :
    parseHeader r = none :=
  filled_not_header (b := 1) (by decide) (by simp) hr

theorem filled_two_not_header (r : Record) (hr : some r ∈ [some (filled 2)]) :
    parseHeader r = none :=
  filled_not_header (b := 2) (by decide) (by simp) hr

theorem length_slot_le (r : Record) : [some r].length ≤ 424 := by simp

theorem length_filled_two_le : [some (filled 2)].length ≤ 424 := length_slot_le _

/-- Inode 3 with a block, a hole that ends the map of its `TS_INODE` header, and a block
described by a `TS_ADDR` header. -/
def holeBeforeAddr : DumpFile where
  first := Segment.write 2 3 threeBlocks length_threeBlocks [some (filled 1), none] (by decide)
    fun _ hr ↦ filled_not_header (b := 1) (by decide) (by simp) hr
  rest := [Segment.write 4 3 threeBlocks length_threeBlocks [some (filled 2)] length_filled_two_le
    filled_two_not_header]
  first_type := rfl
  rest_type := by
    intro s hs
    obtain rfl := List.mem_singleton.mp hs
    rfl

def volumeHeader (type : Word) : Spcl where
  type := type
  date := 0
  ddate := 0
  volume := 1
  tapea := 0
  inumber := 0
  dinode := List.replicate 64 0
  count := 0
  addr := List.replicate 424 0
  dinode_length := List.length_replicate
  addr_length := List.length_replicate

theorem volumeHeader_tape : (volumeHeader 1).type.toInt = tsTape := by decide

theorem volumeHeader_ends (n : ℕ) : ∀ s ∈ List.replicate n (volumeHeader 5), s.type.toInt = tsEnd := by
  intro s hs
  obtain rfl := List.eq_of_mem_replicate hs
  decide

theorem volumeHeader_end : ∀ s ∈ [volumeHeader 5], s.type.toInt = tsEnd := volumeHeader_ends 1

def sparseDump : Stream where
  volume := volumeHeader 1
  bitMaps := []
  files := [holeBeforeAddr]
  ends := [volumeHeader 5]
  volume_type := volumeHeader_tape
  ends_type := volumeHeader_end
  nodup_inums := List.nodup_singleton _

/-- The block behind the hole comes back one block too early. -/
theorem sparseDump_not_restored :
    ¬ ∃ p, parse (tapeOf sparseDump.records) = some p ∧ ∀ f ∈ sparseDump.files, Restored p f := by
  rintro ⟨p, hp, hr⟩
  obtain ⟨order, orphans, hparse, -⟩ := sparseDump.parse_records
  obtain rfl := Option.some.inj (hparse.symm.trans hp)
  have hf : holeBeforeAddr ∈ sparseDump.files := List.mem_singleton.mpr rfl
  have ha := (placed_iff sparseDump hf).mp (hr _ hf).placed
  have hpair := List.rel_of_pairwise_cons ha (List.mem_singleton.mpr rfl)
  exact hpair ⟨filled 2, List.mem_singleton.mpr rfl⟩ rfl

end S8000.Dump
