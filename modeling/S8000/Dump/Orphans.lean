import S8000.Dump.Merge
import S8000.Dump.RoundTrip
import Mathlib.Data.List.Chain

namespace S8000.Dump

open Foundation Foundation.Bytes Foundation.Holes

namespace Adoption

/-- The record is left alone: it does not open with `.`, or the inode it names has a first
block. -/
def Harmless (blocks : Blocks) (r : Record) : Prop :=
  ∀ ino, dotInode r = some ino → blockAt blocks ino 0 ≠ none

theorem adopt_of_harmless {a : Adoption} {o : ℕ × Record} (h : Harmless a.blocks o.2) :
    a.adopt o = a := by
  rw [adopt]
  cases hd : dotInode o.2 with
  | none => rfl
  | some ino =>
    simp only
    rw [if_pos (h ino hd)]

theorem length_adopted_adopt (a : Adoption) (o : ℕ × Record) :
    a.adopted.length ≤ (a.adopt o).adopted.length ∧
      (¬ Harmless a.blocks o.2 → a.adopted.length < (a.adopt o).adopted.length) := by
  rw [adopt, Harmless]
  cases hd : dotInode o.2 with
  | none => simp
  | some ino =>
    simp only
    split
    · rename_i h
      refine ⟨le_rfl, fun hn ↦ absurd (fun i hi ↦ ?_) hn⟩
      obtain rfl := Option.some.inj hi
      exact h
    · rw [List.length_append, List.length_singleton]
      exact ⟨Nat.le_succ _, fun _ ↦ Nat.lt_succ_self _⟩

theorem length_adopted_foldl (a : Adoption) (orphans : List (ℕ × Record)) :
    a.adopted.length ≤ (orphans.foldl adopt a).adopted.length := by
  induction orphans generalizing a with
  | nil => exact le_rfl
  | cons o orphans ih => exact (length_adopted_adopt a o).1.trans (ih _)

/-- Nothing is adopted exactly when no orphan can be. -/
theorem foldl_adopt_iff (a : Adoption) (orphans : List (ℕ × Record)) :
    orphans.foldl adopt a = a ↔ ∀ o ∈ orphans, Harmless a.blocks o.2 := by
  induction orphans with
  | nil => simp
  | cons o orphans ih =>
    rw [List.foldl_cons, List.forall_mem_cons, ← ih]
    by_cases h : Harmless a.blocks o.2
    · rw [adopt_of_harmless h]
      exact ⟨fun h' ↦ ⟨h, h'⟩, fun h' ↦ h'.2⟩
    · refine ⟨fun h' ↦ ?_, fun h' ↦ absurd h'.1 h⟩
      have hlt := (length_adopted_adopt a o).2 h
      have hle := length_adopted_foldl (a.adopt o) orphans
      rw [h'] at hle
      omega

end Adoption

/-- The first part of the file's map that has any block begins with one. -/
def DumpFile.Opens (f : DumpFile) : Prop :=
  (((f.segments.map Segment.slots).find? fun s ↦ extent s ≠ 0).bind List.head?).join ≠ none

/-- No bit map record looks like the first block of a directory that the dump does not have. -/
def Stream.MapsHarmless (s : Stream) : Prop :=
  ∀ r ∈ s.bitMaps.flatMap BitMap.maps, ∀ ino, dotInode r = some ino →
    ∃ f ∈ s.files, f.inum = ino ∧ f.Opens

namespace Stream

variable (s : Stream)

theorem blockAt_stored_zero (ino : ℕ) :
    blockAt s.stored ino 0 ≠ none ↔ ∃ f ∈ s.files, f.inum = ino ∧ f.Opens := by
  constructor
  · intro h
    have hfind := blockAt_foldl_placeSegments s.files s.nodup_inums ∅ ino 0
    rw [stored] at h
    rw [hfind] at h
    cases hf : s.files.find? (fun f ↦ f.inum = ino) with
    | none =>
      rw [hf] at h
      exact absurd rfl h
    | some f =>
      have hmem := List.mem_of_find?_eq_some hf
      have hino : f.inum = ino := by simpa using List.find?_some hf
      refine ⟨f, hmem, hino, ?_⟩
      rw [DumpFile.Opens, ← entry_flatMap_strip_zero, ← s.blockAt_stored hmem, hino, stored, hfind]
      exact h
  · rintro ⟨f, hf, rfl, ho⟩
    rw [s.blockAt_stored hf, entry_flatMap_strip_zero]
    exact ho

/-- The decoded dump, and whether adoption changes it. -/
theorem parse_adopt :
    ∃ p, parse (tapeOf s.records) = some p ∧ p.inodes = s.inodes ∧ p.blocks = s.stored ∧
      p.missing = [] ∧ p.tapehdr = some s.volume.header ∧
      (adoptOrphans p.inodes p.blocks p.orphans = ⟨p.inodes, p.blocks, []⟩ ↔ s.MapsHarmless) := by
  obtain ⟨order, orphans, hparse, horphans⟩ := s.parse_records
  refine ⟨_, hparse, rfl, rfl, rfl, rfl, ?_⟩
  rw [adoptOrphans, Adoption.foldl_adopt_iff, MapsHarmless, ← horphans]
  simp only [Adoption.Harmless, s.blockAt_stored_zero, List.mem_map, forall_exists_index, and_imp,
    forall_apply_eq_imp_iff₂]

end Stream

/-- A dump as a file of the tape, in blocks of 20 records. -/
structure TapeFile extends Stream where
  blocked : toStream.records.length % 20 = 0

/-- The tape blocks of `k` times 20 records. -/
def packBlocks : ℕ → List Record → List (List Byte)
  | 0, _ => []
  | k + 1, rs => (rs.take 20).flatMap Record.bytes :: packBlocks k (rs.drop 20)

def TapeFile.payloads (t : TapeFile) : List (List Byte) :=
  packBlocks (t.records.length / 20) t.records

theorem split_flatMap (rs : List Record) : Record.split (rs.flatMap Record.bytes) = rs := by
  induction rs with
  | nil =>
    rw [Record.split, dif_neg (by decide)]
  | cons r rs ih =>
    have hlen : recordSize ≤ ((r :: rs).flatMap Record.bytes).length := by
      rw [List.flatMap_cons, List.length_append, r.length_eq]
      omega
    have htake : ((r :: rs).flatMap Record.bytes).take recordSize = r.bytes := by
      rw [List.flatMap_cons, ← r.length_eq, List.take_left]
    have hdrop : ((r :: rs).flatMap Record.bytes).drop recordSize = rs.flatMap Record.bytes := by
      rw [List.flatMap_cons, ← r.length_eq, List.drop_left]
    rw [Record.split, dif_pos hlen, hdrop, ih]
    congr 1
    exact Record.ext htake

theorem length_flatMap_bytes (rs : List Record) :
    (rs.flatMap Record.bytes).length = 512 * rs.length := by
  induction rs with
  | nil => rfl
  | cons r rs ih =>
    rw [List.flatMap_cons, List.length_append, ih, r.length_eq, List.length_cons, recordSize]
    omega

theorem numbered_append (tape : Dict ℕ Record) (n : ℕ) (a b : List Record) :
    numbered tape n (a ++ b) = numbered (numbered tape n a) (n + a.length) b := by
  induction a generalizing tape n with
  | nil => rfl
  | cons r a ih =>
    rw [List.cons_append, numbered, ih, numbered, List.length_cons, Nat.add_right_comm,
      Nat.add_assoc]

theorem loadBlocks_packBlocks (k : ℕ) (rs : List Record) (h : rs.length = 20 * k)
    (tape : Dict ℕ Record) (n : ℕ) :
    loadBlocks tape n (packBlocks k rs) = .ok (numbered tape (n * 20) rs) := by
  induction k generalizing rs tape n with
  | zero =>
    obtain rfl := List.length_eq_zero_iff.mp h
    rfl
  | succ k ih =>
    have htake : (rs.take 20).length = 20 := by
      rw [List.length_take]
      omega
    have hlen : ((rs.take 20).flatMap Record.bytes).length = 10240 := by
      rw [length_flatMap_bytes, htake]
    have hrecords : blockRecords ((rs.take 20).flatMap Record.bytes) = rs.take 20 := by
      rw [blockRecords, split_flatMap, List.take_take, Nat.min_self]
    have hsplit := numbered_append tape (n * 20) (rs.take 20) (rs.drop 20)
    rw [List.take_append_drop, htake] at hsplit
    rw [packBlocks, loadBlocks, if_neg (not_not.mpr hlen), hrecords,
      ih (rs.drop 20) (by rw [List.length_drop]; omega), hsplit, Nat.succ_mul]

theorem TapeFile.loadDump_payloads (t : TapeFile) :
    loadDump t.payloads = .ok (tapeOf t.records) := by
  have h := t.blocked
  rw [loadDump, payloads, loadBlocks_packBlocks _ _ (by omega), Nat.zero_mul, tapeOf]

namespace Merged

/-- What a file of the tape adds when nothing is adopted. -/
def addStream (m : Merged) (s : Stream) : Merged :=
  { m with headers := m.headers ++ [s.volume.header] }.overlay s.stored s.inodes.items

theorem addFile_tapeFile {tapeFiles : List (List (List Byte))} {fileNumbers : List ℕ} {m : Merged}
    {n : ℕ} {t : TapeFile} (hn : tapeFiles[n]? = some t.payloads) (ht : t.MapsHarmless)
    (hc : ∀ h ∈ m.headers.getLast?, t.volume.header.ddate = h.date) :
    m.addFile tapeFiles fileNumbers n = .ok (m.addStream t.toStream) := by
  obtain ⟨p, hparse, hinodes, hblocks, hmissing, hheader, hadopt⟩ := t.parse_adopt
  rw [addFile_eq hn t.loadDump_payloads hparse hmissing hheader (hadopt.mpr ht) hc, addStream,
    hinodes, hblocks]

end Merged

/-- The dumps that `merged_dump` reads: their numbers among the files of a tape. -/
structure DumpSet where
  tapeFiles : List (List (List Byte))
  dumps : List (ℕ × TapeFile)
  on_tape : ∀ d ∈ dumps, tapeFiles[d.1]? = some d.2.payloads

namespace DumpSet

def fileNumbers (dumps : List (ℕ × TapeFile)) : List ℕ := dumps.map Prod.fst

/-- Every dump is an incremental of the one before it. -/
def Chained (dumps : List (ℕ × TapeFile)) : Prop :=
  dumps.IsChain fun a b ↦ b.2.volume.header.ddate = a.2.volume.header.date

def merged (dumps : List (ℕ × TapeFile)) : Merged :=
  dumps.foldl (fun m d ↦ m.addStream d.2.toStream) {}

theorem headers_merged (m : Merged) (dumps : List (ℕ × TapeFile)) :
    (dumps.foldl (fun m d ↦ m.addStream d.2.toStream) m).headers =
      m.headers ++ dumps.map fun d ↦ d.2.volume.header := by
  induction dumps generalizing m with
  | nil => simp
  | cons d dumps ih =>
    rw [List.foldl_cons, ih, Merged.addStream, Merged.headers_overlay]
    simp

theorem foldlM_addFile {tapeFiles : List (List (List Byte))} {numbers : List ℕ}
    {dumps : List (ℕ × TapeFile)} (hon : ∀ d ∈ dumps, tapeFiles[d.1]? = some d.2.payloads)
    (hh : ∀ d ∈ dumps, d.2.MapsHarmless) (hc : Chained dumps) (m : Merged)
    (hm : ∀ h ∈ m.headers.getLast?, ∀ d ∈ dumps.head?, d.2.volume.header.ddate = h.date) :
    (fileNumbers dumps).foldlM (Merged.addFile tapeFiles numbers) m =
      .ok (dumps.foldl (fun m d ↦ m.addStream d.2.toStream) m) := by
  induction dumps generalizing m with
  | nil => rfl
  | cons d dumps ih =>
    have hstep : m.addFile tapeFiles numbers d.1 = .ok (m.addStream d.2.toStream) :=
      Merged.addFile_tapeFile (hon d List.mem_cons_self) (hh d List.mem_cons_self)
        (fun h hmem ↦ hm h hmem d rfl)
    have hnext : ∀ h ∈ (m.addStream d.2.toStream).headers.getLast?, ∀ e ∈ dumps.head?,
        e.2.volume.header.ddate = h.date := by
      intro h hmem e he
      rw [Merged.addStream, Merged.headers_overlay, List.getLast?_concat] at hmem
      obtain rfl := Option.some.inj hmem
      cases dumps with
      | nil => cases he
      | cons e' dumps =>
        obtain rfl := Option.some.inj he
        exact (List.isChain_cons_cons.mp hc).1
    rw [fileNumbers, List.map_cons, List.foldlM_cons, hstep, List.foldl_cons]
    exact ih (fun e he ↦ hon e (List.mem_cons_of_mem _ he))
      (fun e he ↦ hh e (List.mem_cons_of_mem _ he)) (List.IsChain.tail hc) _ hnext

theorem mergedDump_eq (ds : DumpSet) {dumps : List (ℕ × TapeFile)} (hsub : dumps ⊆ ds.dumps)
    (hc : Chained dumps) (hh : ∀ d ∈ ds.dumps, d.2.MapsHarmless) :
    mergedDump ds.tapeFiles (fileNumbers dumps) = .ok (merged dumps) :=
  foldlM_addFile (fun d hd ↦ ds.on_tape d (hsub hd)) (fun d hd ↦ hh d (hsub hd)) hc {}
    (fun _ h ↦ absurd h (by simp))

theorem mem_merged (dumps : List (ℕ × TapeFile)) (ino : ℕ) :
    ino ∈ (merged dumps).inodes ↔ ∃ d ∈ dumps, ∃ f ∈ d.2.files, f.inum = ino := by
  rw [merged]
  induction dumps using List.reverseRecOn with
  | nil => simp
  | append_singleton dumps d ih =>
    rw [List.foldl_append, List.foldl_cons, List.foldl_nil, Merged.addStream, Dict.mem_def,
      (Merged.get?_overlay _ _ _ _).1, ne_eq, Option.or_eq_none_iff, not_and_or]
    rw [← ne_eq, ← ne_eq, ← Dict.mem_def, ← Dict.mem_def, d.2.mem_inodes, ih]
    simp only [List.mem_append, List.mem_singleton, or_and_right, exists_or, exists_eq_left]
    exact or_comm

/-- The last dump leaves alone what it does not carry. -/
theorem merged_append_frame (dumps : List (ℕ × TapeFile)) (d : ℕ × TapeFile) (ino : ℕ)
    (h : ∀ f ∈ d.2.files, f.inum ≠ ino) :
    (merged (dumps ++ [d])).inodes.get? ino = (merged dumps).inodes.get? ino ∧
      (merged (dumps ++ [d])).blocks.get? ino = (merged dumps).blocks.get? ino := by
  have hmem : ino ∉ d.2.inodes := fun hm ↦ by
    obtain ⟨f, hf, hi⟩ := (d.2.mem_inodes ino).mp hm
    exact h f hf hi
  have hnone : d.2.inodes.get? ino = none := not_not.mp hmem
  rw [merged, List.foldl_append, List.foldl_cons, List.foldl_nil, Merged.addStream]
  obtain ⟨hi, hb⟩ := Merged.get?_overlay
    { merged dumps with headers := (merged dumps).headers ++ [d.2.volume.header] }
    d.2.stored d.2.inodes ino
  refine ⟨hi.trans ?_, hb.trans ?_⟩
  · rw [hnone, Option.none_or]
  · rw [if_neg hmem]

end DumpSet

theorem mem_extractFiles {root : List Text} {inodes : Inodes} {blocks : Blocks} {paths : Dict ℕ Text}
    {items : List (ℕ × Dinode)} {files : List Extracted}
    (h : extractFiles root inodes blocks paths items = .ok files) (ino : ℕ) :
    ino ∈ files.map Extracted.inode ↔ ∃ d, (ino, d) ∈ items ∧ d.kind = ifreg ∧ d.size ≠ 0 := by
  induction items generalizing files with
  | nil =>
    obtain rfl := Except.ok.inj h
    simp
  | cons i items ih =>
    obtain ⟨k, d⟩ := i
    rw [extractFiles] at h
    split at h
    · rename_i hskip
      rw [ih h]
      refine ⟨fun ⟨e, he, hk⟩ ↦ ⟨e, List.mem_cons_of_mem _ he, hk⟩, fun ⟨e, he, hk⟩ ↦ ⟨e, ?_, hk⟩⟩
      obtain he | he := List.mem_cons.mp he
      · obtain ⟨rfl, rfl⟩ := Prod.mk.inj he
        exact absurd hskip (by tauto)
      · exact he
    · rename_i hkeep
      dsimp only at h
      split at h
      · cases hdata : filedata k inodes blocks with
        | none =>
          rw [hdata] at h
          cases h
        | some data =>
          cases hrest : extractFiles root inodes blocks paths items with
          | error e =>
            rw [hdata, hrest] at h
            cases h
          | ok rest =>
            rw [hdata, hrest] at h
            obtain rfl := Except.ok.inj h
            rw [List.map_cons, List.mem_cons, ih hrest]
            constructor
            · rintro (rfl | ⟨e, he, hk⟩)
              · exact ⟨d, List.mem_cons_self, by tauto, by tauto⟩
              · exact ⟨e, List.mem_cons_of_mem _ he, hk⟩
            · rintro ⟨e, he, hk⟩
              obtain he | he := List.mem_cons.mp he
              · exact .inl (Prod.mk.inj he).1
              · exact .inr ⟨e, he, hk⟩
      · cases h

/-- What is promised of complete dumps: none of them has anything to adopt, extracting one
writes the regular files that have a `TS_INODE` header, merging a chain gives exactly the
inodes that have one, and the last dump of a chain replaces nothing it does not carry. -/
structure NothingInvented (ds : DumpSet) (root : List Text) : Prop where
  adopts : ∀ d ∈ ds.dumps, ∃ p, parse (tapeOf d.2.records) = some p ∧
    adoptOrphans p.inodes p.blocks p.orphans = ⟨p.inodes, p.blocks, []⟩
  extracts : ∀ d ∈ ds.dumps, ∀ files, extractDump root d.2.payloads = .ok files →
    ∀ ino, ino ∈ files.map Extracted.inode ↔
      ∃ f ∈ d.2.files, f.inum = ino ∧ f.dinode.kind = ifreg ∧ f.dinode.size ≠ 0
  merges : DumpSet.Chained ds.dumps →
    ∃ m, mergedDump ds.tapeFiles (DumpSet.fileNumbers ds.dumps) = .ok m ∧
      ∀ ino, ino ∈ m.inodes ↔ ∃ d ∈ ds.dumps, ∃ f ∈ d.2.files, f.inum = ino
  overlays : ∀ base top, ds.dumps = base ++ [top] → DumpSet.Chained ds.dumps →
    ∃ m m', mergedDump ds.tapeFiles (DumpSet.fileNumbers base) = .ok m ∧
      mergedDump ds.tapeFiles (DumpSet.fileNumbers ds.dumps) = .ok m' ∧
      ∀ ino, (∀ f ∈ top.2.files, f.inum ≠ ino) →
        m'.inodes.get? ino = m.inodes.get? ino ∧ m'.blocks.get? ino = m.blocks.get? ino

theorem Stream.extractDump_spec {root : List Text} {t : TapeFile} (ht : t.MapsHarmless)
    {files : List Extracted} (h : extractDump root t.payloads = .ok files) (ino : ℕ) :
    ino ∈ files.map Extracted.inode ↔
      ∃ f ∈ t.files, f.inum = ino ∧ f.dinode.kind = ifreg ∧ f.dinode.size ≠ 0 := by
  obtain ⟨p, hparse, hinodes, -, -, -, hadopt⟩ := t.parse_adopt
  have ha := hadopt.mpr ht
  simp only [extractDump, t.loadDump_payloads, hparse, ha, Option.elim_some, bind, Except.bind] at h
  rw [mem_extractFiles h, hinodes]
  simp only [← Dict.get?_eq_some_iff]
  constructor
  · rintro ⟨d, hd, hk⟩
    obtain ⟨f, hf, rfl⟩ := (t.mem_inodes ino).mp (Dict.mem_iff_get?_eq_some.mpr ⟨d, hd⟩)
    obtain rfl := Option.some.inj ((t.get?_inodes hf).symm.trans hd)
    exact ⟨f, hf, rfl, hk⟩
  · rintro ⟨f, hf, rfl, hk⟩
    exact ⟨f.dinode, t.get?_inodes hf, hk⟩

/-- A record that begins with the given bytes and goes on with zeros. -/
def zeroPadded (front : List Byte) (h : front.length ≤ recordSize) : Record where
  bytes := front ++ List.replicate (recordSize - front.length) 0
  length_eq := by
    rw [List.length_append, List.length_replicate]
    omega

/-- The only block of a root directory: `.` and `..`. -/
def rootBlock : Record :=
  zeroPadded [0, 2, 0x2E, 0, 0, 0, 0, 0, 0, 0, 0, 0, 0, 0, 0, 0, 0, 2, 0x2E, 0x2E] (by decide)

theorem no_segments : ∀ s ∈ ([] : List Segment), s.spcl.type.toInt = tsAddr := by simp

def rootDir : DumpFile where
  first := Segment.write 2 2 ([0x41, 0xED, 0, 2, 0, 0, 0, 0, 0, 0, 0, 32] ++ List.replicate 52 0)
    (by decide) [some rootBlock] (length_slot_le _) (by
      intro r hr
      obtain rfl : r = rootBlock := by simpa using hr
      rw [parseHeader, if_pos (.inl (by decide))])
  rest := []
  first_type := by decide
  rest_type := no_segments

/-- A regular file without contents. -/
def emptyFile (ino : Word) : DumpFile where
  first := Segment.write 2 ino ([0x81, 0xA4, 0, 1] ++ List.replicate 60 0) (by decide) []
    (by decide) (by simp)
  rest := []
  first_type := rfl
  rest_type := no_segments

/-- The bit map of inodes 2, 18, 19, 20 and 22. -/
def bitMapRecord : Record := zeroPadded [0x02, 0, 0x2E] (by decide)

def bitMapOfFive : BitMap where
  spcl := volumeHeader 3
  maps := [bitMapRecord]
  type_eq := .inr (by decide)
  map_not_header := by
    intro r hr
    obtain rfl := List.mem_singleton.mp hr
    rw [parseHeader, if_pos (.inl (by decide))]

def incrementalDump : TapeFile where
  volume := volumeHeader 1
  bitMaps := [bitMapOfFive]
  files := [rootDir, emptyFile 18, emptyFile 19, emptyFile 20, emptyFile 22]
  ends := List.replicate 11 (volumeHeader 5)
  volume_type := volumeHeader_tape
  ends_type := volumeHeader_ends 11
  nodup_inums := by decide
  blocked := by decide

theorem incrementalDump_on_tape :
    ∀ d ∈ [(0, incrementalDump)], [incrementalDump.payloads][d.1]? = some d.2.payloads := by
  intro d hd
  obtain rfl := List.mem_singleton.mp hd
  rfl

end S8000.Dump
