import S8000.Dump.Tree

namespace S8000.Dump

open Foundation Foundation.Bytes

/-- The entry `adopt_orphans` invents for a directory whose header was lost. -/
def orphanDinode : Dinode where
  mode := ifdir ||| 0o777
  nlink := 0
  uid := 0
  gid := 0
  size := 512
  atime := 0
  mtime := 0
  ctime := 0
  rdev := none

/-- The record opens with the entry `.` of a directory: the inode that entry names. -/
def dotInode (r : Record) : Option ℕ :=
  if nameBytes r.bytes 0 ≠ [0x2E] ∨ be16 r.bytes 0 = 0 then none else some (be16 r.bytes 0).toNat

structure Adoption where
  inodes : Inodes
  blocks : Blocks
  adopted : List (ℕ × ℕ)

namespace Adoption

def adopt (a : Adoption) (orphan : ℕ × Record) : Adoption :=
  match dotInode orphan.2 with
  | none => a
  | some ino =>
    if blockAt a.blocks ino 0 ≠ none then a
    else
      { inodes := a.inodes.setdefault ino orphanDinode
        blocks := setBlock a.blocks ino 0 orphan.2
        adopted := a.adopted ++ [(orphan.1, ino)] }

end Adoption

def adoptOrphans (inodes : Inodes) (blocks : Blocks) (orphans : List (ℕ × Record)) : Adoption :=
  orphans.foldl Adoption.adopt { inodes := inodes, blocks := blocks, adopted := [] }

inductive DumpError where
  | indexError (fileNumber : ℕ)
  | blockLength (blockNo length : ℕ)
  | emptyTape
  | missingRecords (fileNumber : ℕ) (missing : List ℕ)
  | noHeader (fileNumber : ℕ)
  | notIncremental (fileNumber previous : ℕ)
  | unsafePath (relative : Text)
  | keyError (ino : ℕ)
deriving DecidableEq

/-- The records of one tape block of 20 dump records. -/
def blockRecords (payload : List Byte) : List Record := (Record.split payload).take 20

/-- The blocks of a tape file from block number `n` on. -/
def loadBlocks (tape : Dict ℕ Record) (n : ℕ) : List (List Byte) → Except DumpError (Dict ℕ Record)
  | [] => .ok tape
  | payload :: records =>
    if payload.length ≠ 10240 then .error (.blockLength n payload.length)
    else loadBlocks (numbered tape (n * 20) (blockRecords payload)) (n + 1) records

def loadDump (records : List (List Byte)) : Except DumpError (Dict ℕ Record) :=
  loadBlocks ∅ 0 records

structure Merged where
  inodes : Inodes := ∅
  blocks : Blocks := ∅
  headers : List Header := []

namespace Merged

/-- `merged_inodes[inode] = metadata` and `merged_blocks[inode] = dict(blocks[inode])` for
every inode of a dump. -/
def overlay (m : Merged) (blocks : Blocks) : List (ℕ × Dinode) → Merged
  | [] => m
  | (ino, d) :: items =>
    overlay
      { m with
        inodes := m.inodes.set ino d
        blocks := m.blocks.set ino (blocks.getD ino ∅) } blocks items

/-- The loop body of `merged_dump` for one file of the tape. -/
def addFile (tapeFiles : List (List (List Byte))) (fileNumbers : List ℕ) (m : Merged)
    (fileNumber : ℕ) : Except DumpError Merged := do
  let records ← (tapeFiles[fileNumber]?).elim (.error (.indexError fileNumber)) .ok
  let tape ← loadDump records
  let p ← (parse tape).elim (.error .emptyTape) .ok
  if p.missing ≠ [] then .error (.missingRecords fileNumber p.missing)
  let a := adoptOrphans p.inodes p.blocks p.orphans
  let header ← p.tapehdr.elim (.error (.noHeader fileNumber)) .ok
  match m.headers.getLast? with
  | some previous =>
    if header.ddate ≠ previous.date then
      .error (.notIncremental fileNumber (fileNumbers.getD (m.headers.length - 1) 0))
  | none => pure ()
  pure ({ m with headers := m.headers ++ [header] }.overlay a.blocks a.inodes.items)

theorem headers_overlay (m : Merged) (blocks : Blocks) (items : List (ℕ × Dinode)) :
    (m.overlay blocks items).headers = m.headers := by
  induction items generalizing m with
  | nil => rfl
  | cons i items ih => rw [overlay, ih]

theorem get?_overlay (m : Merged) (blocks : Blocks) (d : Inodes) (ino : ℕ) :
    (m.overlay blocks d.items).inodes.get? ino = (d.get? ino).or (m.inodes.get? ino) ∧
      (m.overlay blocks d.items).blocks.get? ino =
        if ino ∈ d then some (blocks.getD ino ∅) else m.blocks.get? ino := by
  obtain ⟨items, hnodup⟩ := d
  induction items generalizing m with
  | nil => exact ⟨rfl, rfl⟩
  | cons i items ih =>
    obtain ⟨k, v⟩ := i
    have hn := List.nodup_cons.mp hnodup
    have hlookup : ∀ j, (⟨(k, v) :: items, hnodup⟩ : Inodes).get? j =
        if k = j then some v else (⟨items, hn.2⟩ : Inodes).get? j := by
      intro j
      by_cases hj : k = j
      · simp [Dict.get?, hj]
      · simp [Dict.get?, List.lookup_cons, beq_eq_false_iff_ne.mpr (Ne.symm hj), hj]
    have hk : (⟨items, hn.2⟩ : Inodes).get? k = none := by
      by_contra h
      exact hn.1 (Dict.mem_keys.mpr h)
    obtain ⟨hi, hb⟩ := ih
      { m with inodes := m.inodes.set k v, blocks := m.blocks.set k (blocks.getD k ∅) } hn.2
    rw [overlay, hi, hb]
    simp only [Dict.mem_def, hlookup, Dict.get?_set]
    by_cases hj : k = ino
    · subst hj
      simp [hk]
    · simp [hj]

/-- A file whose records are all there and that leaves nothing to adopt. -/
theorem addFile_eq {tapeFiles : List (List (List Byte))} {fileNumbers : List ℕ} {m : Merged}
    {n : ℕ} {records : List (List Byte)} {tape : Dict ℕ Record} {p : Parsed} {h : Header}
    (hn : tapeFiles[n]? = some records) (hload : loadDump records = .ok tape)
    (hparse : parse tape = some p) (hmissing : p.missing = []) (hheader : p.tapehdr = some h)
    (hadopt : adoptOrphans p.inodes p.blocks p.orphans = ⟨p.inodes, p.blocks, []⟩)
    (hc : ∀ h' ∈ m.headers.getLast?, h.ddate = h'.date) :
    m.addFile tapeFiles fileNumbers n =
      .ok ({ m with headers := m.headers ++ [h] }.overlay p.blocks p.inodes.items) := by
  simp only [addFile, hn, hload, hparse, hmissing, hheader, hadopt, Option.elim_some,
    bind, Except.bind, ne_eq, not_true_eq_false, if_false, pure, Except.pure]
  cases hl : m.headers.getLast? with
  | none => rfl
  | some h' => simp [hc h' (by rw [hl]; rfl)]

end Merged

def mergedDump (tapeFiles : List (List (List Byte))) (fileNumbers : List ℕ) :
    Except DumpError Merged :=
  fileNumbers.foldlM (Merged.addFile tapeFiles fileNumbers) {}

/-- `f"_unnamed/ino{inode:05d}"`. -/
def unnamedPath (ino : ℕ) : Text :=
  let digits := Nat.toDigits 10 ino
  "_unnamed/ino".toList ++ List.replicate (5 - digits.length) '0' ++ digits

/-- A path below `base`, with `.` and `..` resolved as on a tree without symbolic links. -/
def resolve (base : List Text) : List Text → List Text
  | [] => base
  | c :: cs =>
    if c = [] ∨ c = ['.'] then resolve base cs
    else if c = ['.', '.'] then resolve base.dropLast cs
    else resolve (base ++ [c]) cs

structure Extracted where
  inode : ℕ
  destination : List Text
  data : List Byte

/-- The loop of `extract_dump` over the inodes. -/
def extractFiles (root : List Text) (inodes : Inodes) (blocks : Blocks) (paths : Dict ℕ Text) :
    List (ℕ × Dinode) → Except DumpError (List Extracted)
  | [] => .ok []
  | (ino, d) :: items =>
    if d.kind ≠ ifreg ∨ d.size = 0 then extractFiles root inodes blocks paths items
    else
      let relative := (paths.getD ino (unnamedPath ino)).dropWhile (· = '/')
      let destination := resolve root (relative.splitOn '/')
      if root <+: destination ∧ root ≠ destination then do
        let data ← (filedata ino inodes blocks).elim (.error (.keyError ino)) .ok
        let files ← extractFiles root inodes blocks paths items
        .ok ({ inode := ino, destination := destination, data := data } :: files)
      else .error (.unsafePath relative)

def extractDump (root : List Text) (records : List (List Byte)) : Except DumpError (List Extracted) := do
  let tape ← loadDump records
  let p ← (parse tape).elim (.error .emptyTape) .ok
  let a := adoptOrphans p.inodes p.blocks p.orphans
  extractFiles root a.inodes a.blocks (buildPaths a.inodes a.blocks ['/']) a.inodes.items

end S8000.Dump
