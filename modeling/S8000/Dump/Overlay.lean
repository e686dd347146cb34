import S8000.Dump.Orphans

namespace S8000.Dump

open Foundation Foundation.Bytes Foundation.Holes

/-- The inode and block maps of a filesystem. -/
structure Image where
  inodes : Inodes
  blocks : Blocks

/-- Both images have the inode with the same metadata and the same block map, or neither
has it. -/
def SameInode (a b : Image) (ino : ℕ) : Prop :=
  a.inodes.get? ino = b.inodes.get? ino ∧ ∀ lb, blockAt a.blocks ino lb = blockAt b.blocks ino lb

/-- A filesystem: it has a root, and directories name inodes it has. -/
structure Filesystem extends Image where
  root : 2 ∈ inodes
  closed : ∀ ino d, inodes.get? ino = some d → d.kind = ifdir →
    ∀ e ∈ entries d.size (blocks.getD ino ∅), ¬ isDot e.2 → e.1 ∈ inodes

def Parsed.image (p : Parsed) : Image := ⟨p.inodes, p.blocks⟩

def Merged.image (m : Merged) : Image := ⟨m.inodes, m.blocks⟩

/-- File `n` of the tape decodes completely, with nothing left over. -/
structure Decodes (tapeFiles : List (List (List Byte))) (n : ℕ) (p : Parsed) (h : Header) : Prop where
  load : ∃ records tape, tapeFiles[n]? = some records ∧ loadDump records = .ok tape ∧
    parse tape = some p
  complete : p.missing = []
  no_orphans : p.orphans = []
  header : p.tapehdr = some h

/-- A level-0 dump of `fs0` and a level-1 dump of what changed until `fs1`. -/
structure Incremental (fs0 fs1 : Image) (p0 p1 : Parsed) : Prop where
  level0 : ∀ ino, SameInode p0.image fs0 ino
  level1 : ∀ ino ∈ p1.inodes, SameInode p1.image fs1 ino
  changed : ∀ ino ∈ fs1.inodes, ¬ SameInode fs0 fs1 ino → ino ∈ p1.inodes

theorem entries_congr {size : ℕ} {a b : Dict ℕ Record} (h : ∀ lb, a.get? lb = b.get? lb) :
    entries size a = entries size b := by
  simp only [entries, h]

theorem isDir_congr {a b : Inodes} {ino : ℕ} (h : a.get? ino = b.get? ino) :
    isDir a ino ↔ isDir b ino := by
  rw [isDir, isDir, h]

/-- Nodes that the walk does not leave: directories of `S` name only members of `S`. -/
def Closed (a : Image) (S : ℕ → Prop) : Prop :=
  ∀ ino d, S ino → a.inodes.get? ino = some d → d.kind = ifdir →
    ∀ e ∈ entries d.size (a.blocks.getD ino ∅), ¬ isDot e.2 → S e.1

theorem mem_addPath {paths : Dict ℕ (List Text)} {cino : ℕ} {path : Text} {ino : ℕ} :
    ino ∈ addPath paths cino path ↔ ino = cino ∨ ino ∈ paths := Dict.mem_set

section Walk

variable {a b : Image} {S : ℕ → Prop}

theorem pathEntries_congr (hsame : ∀ ino, S ino → SameInode a b ino)
    (paths : Dict ℕ (List Text)) (queue : List (ℕ × Text)) (parent : Text)
    (es : List (ℕ × Text)) (hes : ∀ e ∈ es, ¬ isDot e.2 → S e.1) :
    pathEntries a.inodes paths queue parent es = pathEntries b.inodes paths queue parent es := by
  induction es generalizing paths queue with
  | nil => rfl
  | cons e es ih =>
    obtain ⟨cino, nm⟩ := e
    have hes' : ∀ e ∈ es, ¬ isDot e.2 → S e.1 := fun e he ↦ hes e (List.mem_cons_of_mem _ he)
    rw [pathEntries, pathEntries]
    by_cases hdot : isDot nm
    · rw [if_pos hdot, if_pos hdot, ih _ _ hes']
    · have hc : S cino := hes (cino, nm) List.mem_cons_self hdot
      simp only [if_neg hdot, isDir_congr (hsame cino hc).1, ih _ _ hes']

/-- What one directory adds stays among the nodes its entries name. -/
theorem pathEntries_mem (paths : Dict ℕ (List Text)) (queue : List (ℕ × Text)) (parent : Text)
    (es : List (ℕ × Text)) (hes : ∀ e ∈ es, ¬ isDot e.2 → S e.1)
    (hp : ∀ ino ∈ paths, S ino) (hq : ∀ q ∈ queue, S q.1) :
    (∀ ino ∈ (pathEntries a.inodes paths queue parent es).1, S ino) ∧
      ∀ q ∈ (pathEntries a.inodes paths queue parent es).2, S q.1 := by
  induction es generalizing paths queue with
  | nil => exact ⟨hp, hq⟩
  | cons e es ih =>
    obtain ⟨cino, nm⟩ := e
    have hes' : ∀ e ∈ es, ¬ isDot e.2 → S e.1 := fun e he ↦ hes e (List.mem_cons_of_mem _ he)
    rw [pathEntries]
    by_cases hdot : isDot nm
    · rw [if_pos hdot]
      exact ih _ _ hes' hp hq
    · have hc : S cino := hes (cino, nm) List.mem_cons_self hdot
      rw [if_neg hdot]
      refine ih _ _ hes' (fun ino h ↦ ?_) (fun q h ↦ ?_)
      · obtain rfl | h := mem_addPath.mp h
        · exact hc
        · exact hp ino h
      · split at h
        · obtain h | h := List.mem_append.mp h
          · exact hq q h
          · rw [List.mem_singleton.mp h]
            exact hc
        · exact hq q h

/-- Two images that agree on a set the walk does not leave give the same walk. -/
theorem buildAllPathsLoop_congr (hsame : ∀ ino, S ino → SameInode a b ino) (hclosed : Closed a S)
    (paths : Dict ℕ (List Text)) (walked : List ℕ) (queue : List (ℕ × Text))
    (hp : ∀ ino ∈ paths, S ino) (hq : ∀ q ∈ queue, S q.1) :
    buildAllPathsLoop a.inodes a.blocks paths walked queue =
        buildAllPathsLoop b.inodes b.blocks paths walked queue ∧
      ∀ ino ∈ buildAllPathsLoop a.inodes a.blocks paths walked queue, S ino := by
  induction paths, walked, queue using buildAllPathsLoop.induct a.inodes a.blocks with
  | case1 paths walked =>
    rw [buildAllPathsLoop, buildAllPathsLoop]
    exact ⟨rfl, hp⟩
  | case2 paths walked ino parent queue hget ih =>
    have hb := (hsame ino (hq _ List.mem_cons_self)).1
    have hq' : ∀ q ∈ queue, S q.1 := fun q h ↦ hq q (List.mem_cons_of_mem _ h)
    rw [buildAllPathsLoop_skip (by simp [hget]), buildAllPathsLoop_skip (by simp [← hb, hget])]
    exact ih hp hq'
  | case3 paths walked ino parent queue d hget hskip ih =>
    have hb := (hsame ino (hq _ List.mem_cons_self)).1
    have hq' : ∀ q ∈ queue, S q.1 := fun q h ↦ hq q (List.mem_cons_of_mem _ h)
    have hskip' : ∀ d', a.inodes.get? ino = some d' → ino ∈ walked ∨ d'.kind ≠ ifdir := by
      intro d' hd'
      obtain rfl := Option.some.inj (hget.symm.trans hd')
      exact hskip
    rw [buildAllPathsLoop_skip hskip', buildAllPathsLoop_skip (hb ▸ hskip')]
    exact ih hp hq'
  | case4 paths walked ino parent queue d hget hwalk next ih =>
    have hS := hq _ List.mem_cons_self
    have hb := hsame ino hS
    have hq' : ∀ q ∈ queue, S q.1 := fun q h ↦ hq q (List.mem_cons_of_mem _ h)
    have hdir : d.kind = ifdir := not_not.mp fun h ↦ hwalk (.inr h)
    have hes := hclosed ino d hS hget hdir
    have hentries : entries d.size (b.blocks.getD ino ∅) = entries d.size (a.blocks.getD ino ∅) :=
      entries_congr fun lb ↦ (hb.2 lb).symm
    obtain ⟨hp', hq''⟩ := pathEntries_mem (a := a) paths queue parent _ hes hp hq'
    rw [buildAllPathsLoop_walk hget hwalk, buildAllPathsLoop_walk (hb.1 ▸ hget) hwalk, hentries,
      ← pathEntries_congr hsame paths queue parent _ hes]
    exact ih hp' hq''

theorem buildAllPaths_congr (hsame : ∀ ino, S ino → SameInode a b ino) (hclosed : Closed a S)
    (h2 : S 2) (root : Text) :
    buildAllPaths a.inodes a.blocks root = buildAllPaths b.inodes b.blocks root ∧
      ∀ ino ∈ buildAllPaths a.inodes a.blocks root, S ino := by
  refine buildAllPathsLoop_congr hsame hclosed _ _ _ (fun ino h ↦ ?_) (fun q h ↦ ?_)
  · obtain rfl | h := Dict.mem_set.mp h
    · exact h2
    · exact absurd h (Dict.not_mem_empty ino)
  · rw [List.mem_singleton.mp h]
    exact h2

end Walk

theorem filedata_congr {a b : Image} {ino : ℕ} (h : SameInode a b ino) :
    filedata ino a.inodes a.blocks = filedata ino b.inodes b.blocks := by
  simp only [filedata, h.1, h.2]

/-- Merging two dumps stores what the second has, and what only the first has. -/
theorem mergedDump_pair {tapeFiles : List (List (List Byte))} {n0 n1 : ℕ} {p0 p1 : Parsed}
    {h0 h1 : Header} (hd0 : Decodes tapeFiles n0 p0 h0) (hd1 : Decodes tapeFiles n1 p1 h1)
    (hchain : h1.ddate = h0.date) :
    ∃ m, mergedDump tapeFiles [n0, n1] = .ok m ∧
      (∀ ino ∈ p1.inodes, SameInode p1.image m.image ino) ∧
      ∀ ino, ino ∉ p1.inodes → ino ∈ p0.inodes → SameInode p0.image m.image ino := by
  have hadopt : ∀ p : Parsed, p.orphans = [] →
      adoptOrphans p.inodes p.blocks p.orphans = ⟨p.inodes, p.blocks, []⟩ := by
    intro p hp
    rw [hp]
    rfl
  obtain ⟨r0, t0, hr0, hl0, hp0⟩ := hd0.load
  obtain ⟨r1, t1, hr1, hl1, hp1⟩ := hd1.load
  let m0 : Merged := ({ headers := [h0] } : Merged).overlay p0.blocks p0.inodes.items
  have hm0 : m0.headers = [h0] := Merged.headers_overlay _ _ _
  have hstep0 : Merged.addFile tapeFiles [n0, n1] {} n0 = .ok m0 :=
    Merged.addFile_eq hr0 hl0 hp0 hd0.complete hd0.header (hadopt p0 hd0.no_orphans)
      (fun _ h ↦ absurd h (by simp))
  let m1 : Merged := { m0 with headers := m0.headers ++ [h1] }.overlay p1.blocks p1.inodes.items
  have hstep1 : Merged.addFile tapeFiles [n0, n1] m0 n1 = .ok m1 :=
    Merged.addFile_eq hr1 hl1 hp1 hd1.complete hd1.header (hadopt p1 hd1.no_orphans)
      (fun h hmem ↦ by
        rw [hm0] at hmem
        obtain rfl := Option.some.inj hmem
        exact hchain)
  have hrun : mergedDump tapeFiles [n0, n1] = .ok m1 := by
    simp only [mergedDump, List.foldlM_cons, hstep0, List.foldlM_nil, bind, Except.bind, hstep1]
    rfl
  have hover0 := Merged.get?_overlay { headers := [h0] } p0.blocks p0.inodes
  have hover1 := Merged.get?_overlay { m0 with headers := m0.headers ++ [h1] } p1.blocks p1.inodes
  refine ⟨m1, hrun, fun ino hino ↦ ?_, fun ino hnot hino ↦ ?_⟩
  · obtain ⟨d, hd⟩ := Dict.mem_iff_get?_eq_some.mp hino
    obtain ⟨hi, hb⟩ := hover1 ino
    rw [if_pos hino] at hb
    refine ⟨?_, fun lb ↦ ?_⟩
    · exact hd.trans (hi.trans (by rw [hd, Option.some_or])).symm
    · change _ = (m1.blocks.getD ino ∅).get? lb
      rw [Dict.getD, show m1.blocks.get? ino = _ from hb]
      rfl
  · obtain ⟨d, hd⟩ := Dict.mem_iff_get?_eq_some.mp hino
    obtain ⟨hi, hb⟩ := hover1 ino
    obtain ⟨hi0, hb0⟩ := hover0 ino
    rw [if_neg hnot] at hb
    rw [if_pos hino] at hb0
    have hnone : p1.inodes.get? ino = none := not_not.mp hnot
    rw [hnone, Option.none_or] at hi
    refine ⟨?_, fun lb ↦ ?_⟩
    · exact hd.trans (hi.trans (hi0.trans (by rw [hd, Option.some_or]))).symm
    · change _ = (m1.blocks.getD ino ∅).get? lb
      rw [Dict.getD, show m1.blocks.get? ino = _ from hb.trans hb0]
      rfl

theorem SameInode.symm {a b : Image} {ino : ℕ} (h : SameInode a b ino) : SameInode b a ino :=
  ⟨h.1.symm, fun lb ↦ (h.2 lb).symm⟩

theorem SameInode.trans {a b c : Image} {ino : ℕ} (h : SameInode a b ino) (h' : SameInode b c ino) :
    SameInode a c ino := ⟨h.1.trans h'.1, fun lb ↦ (h.2 lb).trans (h'.2 lb)⟩

theorem SameInode.mem {a b : Image} {ino : ℕ} (h : SameInode a b ino) (ha : ino ∈ a.inodes) :
    ino ∈ b.inodes := by
  rw [Dict.mem_def, ← h.1]
  exact ha

/-- A level-0 dump with its level-1 overlay reads as the later filesystem, although the merged
maps keep the inodes that were deleted in between. -/
theorem merged_dump_reads_later {tapeFiles : List (List (List Byte))} {n0 n1 : ℕ}
    {p0 p1 : Parsed} {h0 h1 : Header} (hd0 : Decodes tapeFiles n0 p0 h0)
    (hd1 : Decodes tapeFiles n1 p1 h1) (hchain : h1.ddate = h0.date)
    (fs0 : Image) (fs1 : Filesystem) (hinc : Incremental fs0 fs1.toImage p0 p1) (root : Text) :
    ∃ m, mergedDump tapeFiles [n0, n1] = .ok m ∧
      (∀ ino ∈ fs0.inodes, ino ∈ m.inodes) ∧
      buildAllPaths m.inodes m.blocks root = buildAllPaths fs1.inodes fs1.blocks root ∧
      ∀ ino ∈ buildAllPaths fs1.inodes fs1.blocks root,
        m.inodes.get? ino = fs1.inodes.get? ino ∧
        filedata ino m.inodes m.blocks = filedata ino fs1.inodes fs1.blocks := by
  obtain ⟨m, hm, hover, hbase⟩ := mergedDump_pair hd0 hd1 hchain
  -- every inode of the later filesystem comes from the overlay or has not changed
  have hsame : ∀ ino, ino ∈ fs1.inodes → SameInode fs1.toImage m.image ino := by
    intro ino hino
    by_cases h1 : ino ∈ p1.inodes
    · exact (hinc.level1 ino h1).symm.trans (hover ino h1)
    · have hkept : SameInode fs0 fs1.toImage ino :=
        not_not.mp fun h ↦ h1 (hinc.changed ino hino h)
      have hp0 := (hinc.level0 ino).trans hkept
      exact hp0.symm.trans (hbase ino h1 (hp0.symm.mem hino))
  have hstale : ∀ ino ∈ fs0.inodes, ino ∈ m.inodes := by
    intro ino hino
    by_cases h1 : ino ∈ p1.inodes
    · exact (hover ino h1).mem h1
    · have hp0 : ino ∈ p0.inodes := (hinc.level0 ino).symm.mem hino
      exact (hbase ino h1 hp0).mem hp0
  have hclosed : Closed fs1.toImage (· ∈ fs1.inodes) :=
    fun ino d _ hget hdir ↦ fs1.closed ino d hget hdir
  obtain ⟨hpaths, hreach⟩ := buildAllPaths_congr hsame hclosed fs1.root root
  refine ⟨m, hm, hstale, hpaths.symm, fun ino hino ↦ ?_⟩
  have h := (hsame ino (hreach ino hino)).symm
  exact ⟨h.1, filedata_congr h⟩

def Stream.image (s : Stream) : Image := ⟨s.inodes, s.stored⟩

theorem Stream.sameInode {s s' : Stream} {f : DumpFile} (hf : f ∈ s.files) (hf' : f ∈ s'.files) :
    SameInode s.image s'.image f.inum :=
  ⟨(s.get?_inodes hf).trans (s'.get?_inodes hf').symm,
    fun lb ↦ (s.blockAt_stored hf lb).trans (s'.blockAt_stored hf' lb).symm⟩

theorem TapeFile.decodes {tapeFiles : List (List (List Byte))} {n : ℕ} {t : TapeFile}
    (hn : tapeFiles[n]? = some t.payloads) (hb : t.bitMaps = []) :
    ∃ p, Decodes tapeFiles n p t.volume.header ∧ p.image = t.image := by
  obtain ⟨order, orphans, hparse, ho⟩ := t.parse_records
  have hnil : orphans = [] := by
    rw [hb] at ho
    exact List.map_eq_nil_iff.mp ho
  exact ⟨_, ⟨⟨_, _, hn, t.loadDump_payloads, hparse⟩, rfl, hnil, rfl⟩, rfl⟩

/-- The block of a root directory with one more entry, of the given inode and name. -/
def rootBlockWith (ino name : Byte) : Record :=
  zeroPadded [0, 2, 0x2E, 0, 0, 0, 0, 0, 0, 0, 0, 0, 0, 0, 0, 0,
    0, 2, 0x2E, 0x2E, 0, 0, 0, 0, 0, 0, 0, 0, 0, 0, 0, 0, 0, ino, name] (by simp [recordSize])

def rootDirWith (ino name : Byte) : DumpFile where
  first := Segment.write 2 2 ([0x41, 0xED, 0, 2, 0, 0, 0, 0, 0, 0, 0, 48] ++ List.replicate 52 0)
    (by decide) [some (rootBlockWith ino name)] (length_slot_le _) (by
      intro r hr
      obtain rfl : r = rootBlockWith ino name := by simpa using hr
      have hmagic : be16 (rootBlockWith ino name).bytes 18 = word 0x2E 0x2E := rfl
      rw [parseHeader, hmagic, if_pos (.inl (by decide))])
  rest := []
  first_type := rfl
  rest_type := no_segments

/-- A dump of the given files without bit maps, filled up to one tape block. -/
def dumpOf (files : List DumpFile) (hn : (files.map DumpFile.inum).Nodup) (ends : ℕ) : Stream where
  volume := volumeHeader 1
  bitMaps := []
  files := files
  ends := List.replicate ends (volumeHeader 5)
  volume_type := volumeHeader_tape
  ends_type := volumeHeader_ends ends
  nodup_inums := hn

/-- The first dump has `a`, inode 18; the second has `b`, inode 19, in its place. -/
def level0Dump : TapeFile where
  toStream := dumpOf [rootDirWith 18 0x61, emptyFile 18, emptyFile 20] (by decide) 15
  blocked := by decide

def level1Dump : TapeFile where
  toStream := dumpOf [rootDirWith 19 0x62, emptyFile 19] (by decide) 16
  blocked := by decide

/-- The filesystem at the second dump: inode 20 has not changed. -/
def laterFiles : Stream :=
  dumpOf [rootDirWith 19 0x62, emptyFile 19, emptyFile 20] (by decide) 0

def laterFilesystem : Filesystem where
  toImage := laterFiles.image
  root := (laterFiles.mem_inodes 2).mpr ⟨rootDirWith 19 0x62, by simp [laterFiles, dumpOf], rfl⟩
  closed := by
    intro ino d hget hdir e he hdot
    obtain ⟨f, hf, rfl⟩ := (laterFiles.mem_inodes ino).mp (Dict.mem_iff_get?_eq_some.mpr ⟨d, hget⟩)
    obtain rfl := Option.some.inj ((laterFiles.get?_inodes hf).symm.trans hget)
    obtain rfl | rfl | rfl : f = rootDirWith 19 0x62 ∨ f = emptyFile 19 ∨ f = emptyFile 20 := by
      simpa [laterFiles, dumpOf] using hf
    · have hnames : entries (rootDirWith 19 0x62).dinode.size (laterFiles.stored.getD 2 ∅) =
          [(2, ['.']), (2, ['.', '.']), (19, ['b'])] := by
        rfl
      have hmem : e ∈ [(2, ['.']), (2, ['.', '.']), (19, ['b'])] := hnames ▸ he
      obtain rfl | rfl | rfl : e = (2, ['.']) ∨ e = (2, ['.', '.']) ∨ e = (19, ['b']) := by
        simpa using hmem
      · exact absurd (.inl rfl) hdot
      · exact absurd (.inr rfl) hdot
      · exact (laterFiles.mem_inodes 19).mpr ⟨emptyFile 19, by simp [laterFiles, dumpOf], rfl⟩
    · exact absurd hdir (by decide)
    · exact absurd hdir (by decide)

theorem merged_dump_reads_later_renamed :
    ∃ m, mergedDump [level0Dump.payloads, level1Dump.payloads] [0, 1] = .ok m ∧
      18 ∈ m.inodes ∧
      buildAllPaths m.inodes m.blocks ['/'] =
        buildAllPaths laterFilesystem.inodes laterFilesystem.blocks ['/'] := by
  let tapeFiles := [level0Dump.payloads, level1Dump.payloads]
  have hn0 : tapeFiles[0]? = some level0Dump.payloads := rfl
  have hn1 : tapeFiles[1]? = some level1Dump.payloads := rfl
  obtain ⟨p0, hd0, hi0⟩ := TapeFile.decodes hn0 rfl
  obtain ⟨p1, hd1, hi1⟩ := TapeFile.decodes hn1 rfl
  have hinodes : p1.inodes = level1Dump.inodes := congrArg Image.inodes hi1
  have hinc : Incremental level0Dump.image laterFilesystem.toImage p0 p1 := by
    refine ⟨fun ino ↦ hi0 ▸ ⟨rfl, fun _ ↦ rfl⟩, fun ino hino ↦ ?_, fun ino hino hne ↦ ?_⟩
    · rw [hinodes] at hino
      obtain ⟨f, hf, rfl⟩ := (level1Dump.mem_inodes ino).mp hino
      rw [hi1]
      refine Stream.sameInode hf ?_
      have hf' : f = rootDirWith 19 0x62 ∨ f = emptyFile 19 := by
        simpa [level1Dump, dumpOf] using hf
      simpa [laterFiles, dumpOf] using hf'.imp_right Or.inl
    · obtain ⟨f, hf, rfl⟩ := (laterFiles.mem_inodes ino).mp hino
      rw [hinodes, level1Dump.mem_inodes]
      obtain rfl | rfl | rfl : f = rootDirWith 19 0x62 ∨ f = emptyFile 19 ∨ f = emptyFile 20 := by
        simpa [laterFiles, dumpOf] using hf
      · exact ⟨_, by simp [level1Dump, dumpOf], rfl⟩
      · exact ⟨_, by simp [level1Dump, dumpOf], rfl⟩
      · exact absurd (Stream.sameInode (by simp [level0Dump, dumpOf]) hf) hne
  obtain ⟨m, hm, hstale, hpaths, -⟩ := merged_dump_reads_later hd0 hd1 rfl level0Dump.image
    laterFilesystem hinc ['/']
  refine ⟨m, hm, hstale 18 ?_, hpaths⟩
  exact (level0Dump.mem_inodes 18).mpr ⟨emptyFile 18, by simp [level0Dump, dumpOf], rfl⟩

end S8000.Dump
