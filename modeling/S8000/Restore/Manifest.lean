import S8000.Dump.Tree
import S8000.Foundation.Numerals
import S8000.Foundation.Traversal
import Mathlib.Data.List.Sort
import Mathlib.Data.List.Lex
import Mathlib.Data.Prod.Lex
import Mathlib.Data.Char

namespace S8000.Restore

open Foundation Foundation.Bytes Foundation.Numerals Foundation.Traversal
open Dump (Text)

/-- A text without NUL, as tar headers and the host's path names hold them. -/
abbrev Plain := { t : Text // '\x00' ∉ t }

structure Metadata where
  mode : ℕ
  uid : ℤ
  gid : ℤ
  atime : ℤ
  mtime : ℤ
deriving DecidableEq

/-- The entries of a dump inode that its line carries. -/
def dumpMetadata (d : Dump.Dinode) : Metadata := ⟨d.mode, d.uid, d.gid, d.atime, d.mtime⟩

inductive Kind
  | directory
  | file
  | block
  | char
  | link
  | unlink
deriving DecidableEq

def Kind.letter : Kind → Char
  | .directory => 'd'
  | .file => 'f'
  | .block => 'b'
  | .char => 'c'
  | .link => 'h'
  | .unlink => 'u'

/-- The arguments of `manifest_line`. -/
structure Line where
  kind : Kind
  metadata : Metadata
  aux : Text
  path : Text
deriving DecidableEq

/-- The errors of the manifest writers. -/
inductive ManifestError
  | field (value : Text)
  | unsafePath (name : Text)
  | unsupported (name : Text)
  | noMembers
  | smallDirectory (path : Text)
  | unsupportedType (type : ℕ) (path : Text)
  | noRdev (path : Text)
  | unordered
deriving DecidableEq

/-- A field that would break its line is refused. -/
def safeField (value : Text) : Except ManifestError Text :=
  if '\t' ∈ value ∨ '\n' ∈ value then .error (.field value) else .ok value

namespace Line

def fields (l : Line) : List Text :=
  [[l.kind.letter], Nat.toDigits 8 (l.metadata.mode &&& 0o7777), decimal l.metadata.uid,
    decimal l.metadata.gid, decimal l.metadata.atime, decimal l.metadata.mtime, l.aux, l.path]

/-- The text of a line whose fields have passed. -/
def text (l : Line) : Text := ['\t'].intercalate l.fields ++ ['\n']

/-- No field holds a separator. -/
def Safe (l : Line) : Prop := ∀ x ∈ l.fields, '\t' ∉ x ∧ '\n' ∉ x

instance (l : Line) : Decidable l.Safe := inferInstanceAs (Decidable (∀ x ∈ l.fields, _))

end Line

def manifestLine (l : Line) : Except ManifestError Text := do
  let fields ← l.fields.mapM safeField
  return ['\t'].intercalate fields ++ ['\n']

theorem safeField_eq_ok {value x : Text} :
    safeField value = .ok x ↔ ('\t' ∉ value ∧ '\n' ∉ value) ∧ value = x := by
  unfold safeField
  split
  · rename_i h
    constructor
    · intro hx
      cases hx
    · rintro ⟨⟨ht, hn⟩, -⟩
      exact absurd h (not_or.mpr ⟨ht, hn⟩)
  · rename_i h
    rw [Except.ok.injEq]
    exact ⟨fun hx ↦ ⟨not_or.mp h, hx⟩, fun hx ↦ hx.2⟩

theorem manifestLine_eq_ok {l : Line} {t : Text} : manifestLine l = .ok t ↔ l.Safe ∧ l.text = t := by
  have hfields : ∀ {xs}, l.fields.mapM safeField = .ok xs ↔ l.Safe ∧ l.fields = xs :=
    mapM_eq_ok_self fun _ _ ↦ safeField_eq_ok
  unfold manifestLine
  cases h : l.fields.mapM safeField with
  | error e =>
    constructor
    · intro ht
      cases ht
    · rintro ⟨hsafe, -⟩
      rw [hfields.mpr ⟨hsafe, rfl⟩] at h
      cases h
  | ok xs =>
    obtain ⟨hsafe, rfl⟩ := hfields.mp h
    simp only [bind, Except.bind, pure, Except.pure, Except.ok.injEq]
    exact ⟨fun ht ↦ ⟨hsafe, ht⟩, fun ht ↦ ht.2⟩

theorem mapM_manifestLine_eq_ok {lines : List Line} {texts : List Text} :
    lines.mapM manifestLine = .ok texts ↔ (∀ l ∈ lines, l.Safe) ∧ lines.map Line.text = texts := by
  rw [mapM_eq_ok]
  constructor
  · intro h
    induction h with
    | nil => exact ⟨fun l hl ↦ absurd hl List.not_mem_nil, rfl⟩
    | cons hl _ ih =>
      obtain ⟨hsafe, rfl⟩ := manifestLine_eq_ok.mp hl
      exact ⟨List.forall_mem_cons.mpr ⟨hsafe, ih.1⟩, congrArg _ ih.2⟩
  · rintro ⟨hsafe, rfl⟩
    rw [List.forall₂_map_right_iff, List.forall₂_same]
    exact fun l hl ↦ manifestLine_eq_ok.mpr ⟨hsafe l hl, rfl⟩

/-- `# kind mode uid gid atime mtime aux path`, with tabs. -/
def manifestHeader : Text :=
  ['#', ' ', 'k', 'i', 'n', 'd', '\t', 'm', 'o', 'd', 'e', '\t', 'u', 'i', 'd', '\t', 'g', 'i', 'd',
    '\t', 'a', 't', 'i', 'm', 'e', '\t', 'm', 't', 'i', 'm', 'e', '\t', 'a', 'u', 'x', '\t',
    'p', 'a', 't', 'h', '\n']

/-- The lines are made and written one after the other. -/
def writeLines (lines : List (Except ManifestError Line)) : Except ManifestError Text := do
  let texts ← lines.mapM fun l ↦ l >>= manifestLine
  return manifestHeader ++ texts.flatten

section Paths

/-- `lstrip("./")`. -/
def lstripDots (t : Text) : Text := t.dropWhile fun c ↦ c = '.' ∨ c = '/'

/-- The components of a `PurePosixPath`, its root left out. -/
def parts (t : Text) : List Text := (t.splitOn '/').filter fun p ↦ p ≠ [] ∧ p ≠ ['.']

/-- The text of an absolute `PurePosixPath`. -/
def absolute (ps : List Text) : Text := '/' :: ['/'].intercalate ps

/-- A path and its ancestors below the root, from the reversed components. -/
def climb : List Text → List Text
  | [] => []
  | p :: ps => absolute (p :: ps).reverse :: climb ps

/-- `parent = Path(path).parent; while str(parent) != "/": ...; parent = parent.parent`. -/
def parentDirectories (path : Text) : List Text := climb (parts path).reverse.tail

/-- The order of `sorted(..., key=lambda p: (p.count("/"), p))`. -/
def pathLE (p q : Text) : Prop := toLex (p.count '/', p) ≤ toLex (q.count '/', q)

instance : DecidableRel pathLE := fun _ _ ↦ inferInstanceAs (Decidable (_ ≤ _))

/-- The set of the parent directories, sorted. -/
def directoriesOf (paths : List Text) : List Text :=
  (paths.flatMap parentDirectories).dedup.insertionSort pathLE

/-- A member name that a writer refuses. -/
def isUnsafe (relative : Text) : Prop :=
  relative = [] ∨ relative.head? = some '/' ∨ ['.', '.'] ∈ parts relative

instance (relative : Text) : Decidable (isUnsafe relative) := inferInstanceAs (Decidable (_ ∨ _ ∨ _))

end Paths

section Archive

inductive MemberKind
  | file (data : List Byte)
  | link (linkname : Plain)
  | other

/-- A member of a tar archive, as `tarfile` reports it. -/
structure Member where
  name : Plain
  mode : ℕ
  uid : ℤ
  gid : ℤ
  mtime : ℤ
  kind : MemberKind

namespace Member

def metadata (m : Member) : Metadata where
  mode := Dump.ifreg ||| m.mode
  uid := m.uid
  gid := m.gid
  atime := m.mtime
  mtime := m.mtime

/-- `member.name.lstrip("./")`. -/
def stripped (m : Member) : Text := lstripDots m.name.val

end Member

/-- `f"{n:0{width}d}"`. -/
def zeroPadded (width n : ℕ) : Text :=
  List.replicate (width - (Nat.toDigits 10 n).length) '0' ++ Nat.toDigits 10 n

def directoryMetadata (directoryTime : ℤ) : Metadata where
  mode := Dump.ifdir ||| 0o755
  uid := 0
  gid := 0
  atime := directoryTime
  mtime := directoryTime

def directoryLine (directoryTime : ℤ) (path : Text) : Line :=
  ⟨.directory, directoryMetadata directoryTime, ['-'], path⟩

/-- The `d` lines that precede the members. -/
def directoryLines (directoryTime : ℤ) (paths : List Text) : List (Except ManifestError Line) :=
  (directoriesOf paths).map fun p ↦ .ok (directoryLine directoryTime p)

end Archive

section Package

inductive Filesystem
  | root
  | usr
deriving DecidableEq

def Filesystem.name : Filesystem → Text
  | .root => ['r', 'o', 'o', 't']
  | .usr => ['u', 's', 'r']

/-- `prefix = "usr/"`. -/
def usrSlash : Text := ['u', 's', 'r', '/']

/-- The name of a member below the file system, or `none` for a member of the other one. -/
def relativeTo (filesystem : Filesystem) (m : Member) : Option Text :=
  let onUsr := usrSlash.isPrefixOf m.stripped
  if (filesystem = .usr) ≠ onUsr then none
  else some (if onUsr then m.stripped.drop usrSlash.length else m.stripped)

/-- The members of one file system with their paths. -/
def select (filesystem : Filesystem) (members : List Member) :
    Except ManifestError (List (Member × Text)) :=
  (members.filterMap fun m ↦ (relativeTo filesystem m).map (m, ·)).mapM fun (m, relative) ↦
    if isUnsafe relative then .error (.unsafePath m.name.val) else .ok (m, '/' :: relative)

/-- `work / f"package-{file_number:03d}-payloads" / f"{filesystem}-{index:04d}.bin"`. -/
def packagePayload (work : Plain) (fileNumber : ℕ) (filesystem : Filesystem) (index : ℕ) : Text :=
  work.val ++ ['/', 'p', 'a', 'c', 'k', 'a', 'g', 'e', '-'] ++ zeroPadded 3 fileNumber ++
    ['-', 'p', 'a', 'y', 'l', 'o', 'a', 'd', 's', '/'] ++ filesystem.name ++ ['-'] ++
    zeroPadded 4 index ++ ['.', 'b', 'i', 'n']

/-- The target of a hard link: where an earlier member went, else the name itself. -/
def linkTarget (filesystem : Filesystem) (paths : Dict Text Text) (linkname : Text) : Text :=
  let targetName := lstripDots linkname
  let below := if filesystem = .usr ∧ usrSlash.isPrefixOf targetName then
    targetName.drop usrSlash.length else targetName
  (paths.get? targetName).getD ('/' :: below)

/-- The lines of the selected members, `paths` holding the files that went before. -/
def packageLines (work : Plain) (fileNumber : ℕ) (filesystem : Filesystem) (paths : Dict Text Text)
    (index : ℕ) : List (Member × Text) → List (Except ManifestError Line)
  | [] => []
  | (m, path) :: selected =>
    match m.kind with
    | .file _ =>
      .ok ⟨.file, m.metadata, packagePayload work fileNumber filesystem index, path⟩ ::
        packageLines work fileNumber filesystem (paths.set m.stripped path) (index + 1) selected
    | .link linkname =>
      .ok ⟨.link, m.metadata, linkTarget filesystem paths linkname.val, path⟩ ::
        packageLines work fileNumber filesystem paths (index + 1) selected
    | .other => [.error (.unsupported m.name.val)]

/-- The payloads that the loop writes. -/
def packageFiles (work : Plain) (fileNumber : ℕ) (filesystem : Filesystem) (index : ℕ) :
    List (Member × Text) → List (Text × List Byte)
  | [] => []
  | (m, _) :: selected =>
    match m.kind with
    | .file data =>
      (packagePayload work fileNumber filesystem index, data) ::
        packageFiles work fileNumber filesystem (index + 1) selected
    | .link _ => packageFiles work fileNumber filesystem (index + 1) selected
    | .other => []

/-- `min(member.mtime for ...)`. -/
def directoryTimeOf (members : List Member) : ℤ := ((members.map Member.mtime).min?).getD 0

def packageManifest (work : Plain) (fileNumber : ℕ) (filesystem : Filesystem)
    (selected : List (Member × Text)) : Except ManifestError Text :=
  writeLines (directoryLines (directoryTimeOf (selected.map Prod.fst)) (selected.map Prod.snd) ++
    packageLines work fileNumber filesystem ∅ 0 selected)

/-- One file system of `write_package_manifests`; nothing is written without members. -/
def writePackageManifest (work : Plain) (fileNumber : ℕ) (members : List Member)
    (filesystem : Filesystem) : Except ManifestError (Option (Text × ℕ)) := do
  let selected ← select filesystem members
  if selected = [] then return none
  let text ← packageManifest work fileNumber filesystem selected
  return some (text, selected.length)

/-- The manifests of a package, each with its number of members. -/
def writePackageManifests (work : Plain) (fileNumber : ℕ) (members : List Member) :
    Except ManifestError (List (Filesystem × Text × ℕ)) := do
  let root ← writePackageManifest work fileNumber members .root
  let usr ← writePackageManifest work fileNumber members .usr
  return (root.map (Filesystem.root, ·)).toList ++ (usr.map (Filesystem.usr, ·)).toList

/-- The payload files of a package that is not refused. -/
def packagePayloads (work : Plain) (fileNumber : ℕ) (members : List Member) : List (Text × List Byte) :=
  [Filesystem.root, .usr].flatMap fun filesystem ↦
    match select filesystem members with
    | .error _ => []
    | .ok selected => packageFiles work fileNumber filesystem 0 selected

end Package

section Upgrade

def upgradePath (m : Member) : Text := '/' :: m.stripped

/-- `work / "upgrade-payloads" / f"{index:04d}.bin"`. -/
def upgradePayload (work : Plain) (index : ℕ) : Text :=
  work.val ++ ['/', 'u', 'p', 'g', 'r', 'a', 'd', 'e', '-', 'p', 'a', 'y', 'l', 'o', 'a', 'd', 's', '/'] ++
    zeroPadded 4 index ++ ['.', 'b', 'i', 'n']

/-- The lines of the files; the links wait for the end. -/
def upgradeFiles (work : Plain) (index : ℕ) : List Member → List (Except ManifestError Line)
  | [] => []
  | m :: members =>
    match m.kind with
    | .file _ =>
      .ok ⟨.file, m.metadata, upgradePayload work index, upgradePath m⟩ ::
        upgradeFiles work (index + 1) members
    | .link _ => upgradeFiles work (index + 1) members
    | .other => [.error (.unsupported m.name.val)]

/-- The payload files of the update. -/
def upgradePayloads (work : Plain) (index : ℕ) : List Member → List (Text × List Byte)
  | [] => []
  | m :: members =>
    match m.kind with
    | .file data => (upgradePayload work index, data) :: upgradePayloads work (index + 1) members
    | .link _ => upgradePayloads work (index + 1) members
    | .other => []

def upgradeLink (m : Member) : Option (Except ManifestError Line) :=
  match m.kind with
  | .link linkname => some (.ok ⟨.link, m.metadata, '/' :: lstripDots linkname.val, upgradePath m⟩)
  | _ => none

def writeUpgradeManifest (work : Plain) (members : List Member) : Except ManifestError Text := do
  if let some m := members.find? (isUnsafe ·.stripped) then throw (.unsafePath m.name.val)
  if members = [] then throw .noMembers
  writeLines (directoryLines (directoryTimeOf members) (members.map upgradePath) ++
    (upgradeFiles work 0 members ++ members.filterMap upgradeLink))

end Upgrade

end S8000.Restore
