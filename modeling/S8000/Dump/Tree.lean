import S8000.Dump.Parse
import Mathlib.Data.List.DropRight

namespace S8000.Dump

open Foundation Foundation.Bytes

abbrev Text := List Char

def ifmt : ℕ := 0o170000
def ifdir : ℕ := 0o040000
def ifreg : ℕ := 0o100000
def ifchr : ℕ := 0o020000
def ifblk : ℕ := 0o060000

/-- `mode & IFMT`. -/
def Dinode.kind (d : Dinode) : ℕ := d.mode &&& ifmt

/-- `inodes.get(ino, {}).get('mode', 0) & IFMT == IFDIR`. -/
def isDir (inodes : Inodes) (ino : ℕ) : Prop := ((inodes.get? ino).map Dinode.kind).getD 0 = ifdir

instance (inodes : Inodes) (ino : ℕ) : Decidable (isDir inodes ino) :=
  inferInstanceAs (Decidable (_ = _))

/-- `decode('ascii', 'replace')`. -/
def decodeAscii (b : List Byte) : Text :=
  b.map fun c ↦ if c.toNat < 128 then Char.ofNat c.toNat else Char.ofNat 0xFFFD

/-- The 14 bytes of a name up to the first NUL, `b[o + 2:o + 16].split(b'\0')[0]`. -/
def nameBytes (b : List Byte) (o : ℕ) : List Byte := ((b.drop (o + 2)).take 14).takeWhile (· ≠ 0)

def direntAt (b : List Byte) (o : ℕ) : Option (ℕ × Text) :=
  if be16 b o = 0 then none else some ((be16 b o).toNat, decodeAscii (nameBytes b o))

/-- The live entries of a directory of `size` bytes with the given blocks. -/
def entries (size : ℕ) (blocks : Dict ℕ Record) : List (ℕ × Text) :=
  (List.range ((size + 511) / 512)).flatMap fun lb ↦
    match blocks.get? lb with
    | none => []
    | some b =>
      (((List.range 32).map (16 * ·)).takeWhile fun o ↦ lb * 512 + o < size).filterMap
        (direntAt b.bytes)

/-- `none` is the `KeyError` of an inode without an entry. -/
def dirents (ino : ℕ) (inodes : Inodes) (blocks : Blocks) : Option (List (ℕ × Text)) :=
  (inodes.get? ino).map fun d ↦ entries d.size (blocks.getD ino ∅)

/-- The names `.` and `..`. -/
def isDot (nm : Text) : Prop := nm = ['.'] ∨ nm = ['.', '.']

instance (nm : Text) : Decidable (isDot nm) := inferInstanceAs (Decidable (_ ∨ _))

/-- `parent.rstrip('/') + '/' + nm`. -/
def joinPath (parent nm : Text) : Text := parent.rdropWhile (· = '/') ++ '/' :: nm

section BuildPaths

/-- The loop of `build_paths` over the entries of one directory. -/
def nameEntries (paths : Dict ℕ Text) (queue : List ℕ) (parent : Text) :
    List (ℕ × Text) → Dict ℕ Text × List ℕ
  | [] => (paths, queue)
  | (cino, nm) :: es =>
    if isDot nm ∨ cino ∈ paths then nameEntries paths queue parent es
    else nameEntries (paths.set cino (joinPath parent nm)) (queue ++ [cino]) parent es

/-- Inode numbers have 16 bits. -/
@[irreducible] def inodeLimit : ℕ := 65536

/-- The inode numbers that have no path yet. -/
def unnamed (paths : Dict ℕ Text) : List ℕ := (List.range inodeLimit).filter (· ∉ paths)

theorem length_unnamed_set {paths : Dict ℕ Text} {ino : ℕ} (path : Text) (hlt : ino < inodeLimit)
    (h : ino ∉ paths) : (unnamed (paths.set ino path)).length + 1 = (unnamed paths).length := by
  have hperm : (unnamed paths).Perm (ino :: unnamed (paths.set ino path)) := by
    rw [List.perm_ext_iff_of_nodup]
    · intro m
      simp only [unnamed, List.mem_filter, List.mem_range, decide_eq_true_eq, Dict.mem_set,
        List.mem_cons, not_or]
      constructor
      · rintro ⟨hm, hn⟩
        by_cases he : m = ino
        · exact .inl he
        · exact .inr ⟨hm, he, hn⟩
      · rintro (rfl | ⟨hm, -, hn⟩)
        · exact ⟨hlt, h⟩
        · exact ⟨hm, hn⟩
    · exact List.nodup_range.filter _
    · refine List.nodup_cons.mpr ⟨?_, List.nodup_range.filter _⟩
      simp [unnamed, Dict.mem_set]
  rw [hperm.length_eq, List.length_cons]

theorem nameEntries_measure (paths : Dict ℕ Text) (queue : List ℕ) (parent : Text)
    (es : List (ℕ × Text)) (hes : ∀ e ∈ es, e.1 < inodeLimit) :
    (unnamed (nameEntries paths queue parent es).1).length +
      (nameEntries paths queue parent es).2.length = (unnamed paths).length + queue.length := by
  induction es generalizing paths queue with
  | nil => rfl
  | cons e es ih =>
    obtain ⟨cino, nm⟩ := e
    have hes' : ∀ e ∈ es, e.1 < inodeLimit := fun e he ↦ hes e (List.mem_cons_of_mem _ he)
    rw [nameEntries]
    split
    · exact ih paths queue hes'
    · rename_i h
      have hlt : cino < inodeLimit := hes (cino, nm) List.mem_cons_self
      have hset := length_unnamed_set (joinPath parent nm) hlt (fun h' ↦ h (.inr h'))
      rw [ih _ _ hes', List.length_append, List.length_singleton]
      omega

theorem entries_lt (size : ℕ) (blocks : Dict ℕ Record) : ∀ e ∈ entries size blocks, e.1 < inodeLimit := by
  intro e he
  obtain ⟨lb, -, he⟩ := List.mem_flatMap.mp he
  split at he
  · cases he
  · obtain ⟨o, -, ho⟩ := List.mem_filterMap.mp he
    rw [direntAt] at ho
    split at ho
    · cases ho
    · rw [← Option.some.inj ho]
      rw [inodeLimit]
      exact BitVec.isLt _

def buildPathsLoop (inodes : Inodes) (blocks : Blocks) (paths : Dict ℕ Text) :
    List ℕ → Dict ℕ Text
  | [] => paths
  | ino :: queue =>
    match inodes.get? ino with
    | none => buildPathsLoop inodes blocks paths queue
    | some d =>
      if d.kind ≠ ifdir then buildPathsLoop inodes blocks paths queue
      else
        let next := nameEntries paths queue (paths.getD ino []) (entries d.size (blocks.getD ino ∅))
        buildPathsLoop inodes blocks next.1 next.2
termination_by queue => (unnamed paths).length + queue.length
decreasing_by
  · exact Nat.lt_succ_self _
  · exact Nat.lt_succ_self _
  · rw [nameEntries_measure _ _ _ _ (entries_lt _ _)]
    exact Nat.lt_succ_self _

def buildPaths (inodes : Inodes) (blocks : Blocks) (root : Text) : Dict ℕ Text :=
  buildPathsLoop inodes blocks (Dict.set ∅ 2 root) [2]

end BuildPaths

section BuildAllPaths

/-- `if path not in paths[cino]: paths[cino].append(path)`. -/
def addPath (paths : Dict ℕ (List Text)) (cino : ℕ) (path : Text) : Dict ℕ (List Text) :=
  let known := paths.getD cino []
  paths.set cino (if path ∈ known then known else known ++ [path])

/-- The loop of `build_all_paths` over the entries of one directory. -/
def pathEntries (inodes : Inodes) (paths : Dict ℕ (List Text)) (queue : List (ℕ × Text))
    (parent : Text) : List (ℕ × Text) → Dict ℕ (List Text) × List (ℕ × Text)
  | [] => (paths, queue)
  | (cino, nm) :: es =>
    if isDot nm then pathEntries inodes paths queue parent es
    else
      let path := joinPath parent nm
      pathEntries inodes (addPath paths cino path)
        (if isDir inodes cino then queue ++ [(cino, path)] else queue) parent es

/-- The inodes that have not been walked. -/
def unwalked (inodes : Inodes) (walked : List ℕ) : List ℕ := inodes.keys.filter (· ∉ walked)

theorem length_unwalked_cons {inodes : Inodes} {walked : List ℕ} {ino : ℕ} (h : ino ∈ inodes)
    (hw : ino ∉ walked) :
    (unwalked inodes (ino :: walked)).length < (unwalked inodes walked).length := by
  have hsub : (unwalked inodes (ino :: walked)).Sublist (unwalked inodes walked) := by
    refine List.monotone_filter_right _ fun m hm ↦ ?_
    simp only [List.mem_cons, not_or, decide_eq_true_eq] at hm ⊢
    exact hm.2
  refine lt_of_le_of_ne hsub.length_le fun heq ↦ ?_
  have hmem : ino ∈ unwalked inodes (ino :: walked) := by
    rw [hsub.eq_of_length heq]
    exact List.mem_filter.mpr ⟨Dict.mem_keys.mpr h, by simpa using hw⟩
  simp [unwalked] at hmem

def buildAllPathsLoop (inodes : Inodes) (blocks : Blocks) (paths : Dict ℕ (List Text))
    (walked : List ℕ) (queue : List (ℕ × Text)) : Dict ℕ (List Text) :=
  match queue with
  | [] => paths
  | (ino, parent) :: queue =>
    match _h : inodes.get? ino with
    | none => buildAllPathsLoop inodes blocks paths walked queue
    | some d =>
      if _hd : ino ∈ walked ∨ d.kind ≠ ifdir then buildAllPathsLoop inodes blocks paths walked queue
      else
        let next := pathEntries inodes paths queue parent (entries d.size (blocks.getD ino ∅))
        buildAllPathsLoop inodes blocks next.1 (ino :: walked) next.2
termination_by ((unwalked inodes walked).length, queue.length)
decreasing_by
  · exact Prod.Lex.right _ (by simp)
  · exact Prod.Lex.right _ (by simp)
  · exact Prod.Lex.left _ _
      (length_unwalked_cons (Dict.mem_iff_get?_eq_some.mpr ⟨d, _h⟩) (fun hw ↦ _hd (.inl hw)))

section Loop

variable {inodes : Inodes} {blocks : Blocks} {paths : Dict ℕ (List Text)} {walked : List ℕ}
  {ino : ℕ} {parent : Text} {queue : List (ℕ × Text)}

theorem buildAllPathsLoop_skip
    (h : ∀ d, inodes.get? ino = some d → ino ∈ walked ∨ d.kind ≠ ifdir) :
    buildAllPathsLoop inodes blocks paths walked ((ino, parent) :: queue) =
      buildAllPathsLoop inodes blocks paths walked queue := by
  rw [buildAllPathsLoop]
  split
  · rfl
  · rename_i d hget
    rw [dif_pos (h d hget)]

theorem buildAllPathsLoop_walk {d : Dinode} (hget : inodes.get? ino = some d)
    (hw : ¬ (ino ∈ walked ∨ d.kind ≠ ifdir)) :
    buildAllPathsLoop inodes blocks paths walked ((ino, parent) :: queue) =
      buildAllPathsLoop inodes blocks
        (pathEntries inodes paths queue parent (entries d.size (blocks.getD ino ∅))).1 (ino :: walked)
        (pathEntries inodes paths queue parent (entries d.size (blocks.getD ino ∅))).2 := by
  rw [buildAllPathsLoop]
  split
  · rename_i hnone
    rw [hget] at hnone
    cases hnone
  · rename_i d' hget'
    obtain rfl := Option.some.inj (hget.symm.trans hget')
    rw [dif_neg hw]

end Loop

def buildAllPaths (inodes : Inodes) (blocks : Blocks) (root : Text) : Dict ℕ (List Text) :=
  buildAllPathsLoop inodes blocks (Dict.set ∅ 2 [root]) [] [(2, root)]

end BuildAllPaths

end S8000.Dump
