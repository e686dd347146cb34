import S8000.Restore.Manifest

namespace S8000.Restore

open Foundation Foundation.Bytes Foundation.Numerals Foundation.Traversal
open Dump (Text Dinode Inodes Blocks)

/-- A tuple of the lists `directories`, `objects` and `links`. -/
structure Item where
  path : Text
  kind : Kind
  dinode : Dinode
  aux : Text
deriving DecidableEq

def Item.line (x : Item) : Line := ⟨x.kind, dumpMetadata x.dinode, x.aux, x.path⟩

/-- A tuple of the list `padding`. -/
structure Padding where
  path : Text
  dinode : Dinode
  count : ℕ
deriving DecidableEq

/-- What the loop over the inodes collects, with the payload files that it writes. -/
structure Sections where
  directories : List Item := []
  objects : List Item := []
  links : List Item := []
  padding : List Padding := []
  payloads : List (Text × List Byte) := []

def Sections.append (s t : Sections) : Sections where
  directories := s.directories ++ t.directories
  objects := s.objects ++ t.objects
  links := s.links ++ t.links
  padding := s.padding ++ t.padding
  payloads := s.payloads ++ t.payloads

section Describe

variable (work name : Plain) (inodes : Inodes) (blocks : Blocks)

/-- `work / f"{name}-payloads" / f"inode-{inode:05d}.bin"`. -/
def dumpPayload (ino : ℕ) : Text :=
  work.val ++ ['/'] ++ name.val ++
    ['-', 'p', 'a', 'y', 'l', 'o', 'a', 'd', 's', '/', 'i', 'n', 'o', 'd', 'e', '-'] ++ zeroPadded 5 ino ++
    ['.', 'b', 'i', 'n']

/-- `work / f"{name}-empty"`. -/
def emptyPayload : Text := work.val ++ ['/'] ++ name.val ++ ['-', 'e', 'm', 'p', 't', 'y']

/-- The aliases of an object come as links to its first path. -/
def objectSections (first : Text) (aliases : List Text) (kind : Kind) (d : Dinode) (aux : Text) : Sections where
  objects := [⟨first, kind, d, aux⟩]
  links := aliases.map fun path ↦ ⟨path, .link, d, first⟩

/-- The body of the loop, for an inode of the dump and its sorted paths. -/
def describe (ino : ℕ) (d : Dinode) (first : Text) (aliases : List Text) : Except ManifestError Sections :=
  if d.kind = Dump.ifdir then
    let liveSlots := (Dump.entries d.size (blocks.getD ino ∅)).length
    let desiredSlots := d.size / 16
    if desiredSlots < liveSlots then .error (.smallDirectory first)
    else .ok {
      directories := [⟨first, .directory, d, ['-']⟩]
      padding := [⟨first, d, desiredSlots - liveSlots⟩] }
  else if d.kind = Dump.ifreg then
    let payload := dumpPayload work name ino
    .ok { objectSections first aliases .file d payload with
      payloads := [(payload, (Dump.filedata ino inodes blocks).getD [])] }
  else if d.kind = Dump.ifblk ∨ d.kind = Dump.ifchr then
    match d.rdev with
    | none => .error (.noRdev first)
    | some rdev =>
      .ok (objectSections first aliases (if d.kind = Dump.ifblk then .block else .char) d
        (decimal (rdev &&& 0xFFFF : ℕ)))
  else .error (.unsupportedType d.kind first)

/-- The loop over `all_paths`, where no list is empty; inodes that the dump lacks are passed over. -/
def describeAll : List (ℕ × List Text) → Except ManifestError Sections
  | [] => .ok {}
  | (ino, paths) :: items =>
    match inodes.get? ino, paths.insertionSort pathLE with
    | some d, first :: aliases => do
      let sections ← describe work name inodes blocks ino d first aliases
      return sections.append (← describeAll items)
    | _, _ => describeAll items

end Describe

section Sorting

/-- `sorted` of tuples with a dictionary in the middle; dictionaries are not ordered. -/
def sortedBy {α κ ρ : Type} [LinearOrder κ] [LinearOrder ρ] (key : α → κ) (dinode : α → Dinode) (rest : α → ρ)
    (l : List α) : Except ManifestError (List α) :=
  if l.Pairwise fun a b ↦ key a = key b → dinode a = dinode b then
    .ok (l.insertionSort fun a b ↦ toLex (key a, rest a) ≤ toLex (key b, rest b))
  else .error .unordered

def sortedDirectories (l : List Item) : Except ManifestError (List Item) :=
  sortedBy (fun x ↦ toLex (x.path.count '/', x.path)) Item.dinode (fun _ ↦ ()) l

def sortedObjects (l : List Item) : Except ManifestError (List Item) :=
  sortedBy (fun x ↦ toLex (x.path, x.kind.letter)) Item.dinode Item.aux l

def sortedLinks (l : List Item) : Except ManifestError (List Item) :=
  sortedBy Item.path Item.dinode Item.aux l

def sortedPadding (l : List Padding) : Except ManifestError (List Padding) :=
  sortedBy Padding.path Padding.dinode Padding.count l

end Sorting

section Temporary

/-- `f".__R{number:04x}"`. -/
def temporaryName (number : ℕ) : Text :=
  ['.', '_', '_', 'R'] ++ List.replicate (4 - (Nat.toDigits 16 number).length) '0' ++ Nat.toDigits 16 number

/-- The temporary entries of a directory. -/
def Padding.temporaryPaths (x : Padding) : List Text :=
  let stem := if x.path = ['/'] then [] else x.path
  (List.range x.count).map fun number ↦ stem ++ '/' :: temporaryName number

def emptyMetadata : Metadata where
  mode := Dump.ifreg ||| 0o600
  uid := 0
  gid := 0
  atime := 0
  mtime := 0

def temporaryLine (work name : Plain) (path : Text) : Line :=
  ⟨.file, emptyMetadata, emptyPayload work name, path⟩

def unlinkLine (path : Text) : Line := ⟨.unlink, emptyMetadata, ['-'], path⟩

end Temporary

def manifestLines (lines : List Line) : Except ManifestError Text := do
  let texts ← lines.mapM manifestLine
  return texts.flatten

/-- The manifest of a dump and the payload files beside it. -/
def writeDumpManifest (work name : Plain) (inodes : Inodes) (blocks : Blocks) :
    Except ManifestError (Text × List (Text × List Byte)) := do
  let sections ← describeAll work name inodes blocks (Dump.buildAllPaths inodes blocks ['/']).items
  let directories ← manifestLines ((← sortedDirectories sections.directories).map Item.line)
  let objects ← manifestLines ((← sortedObjects sections.objects).map Item.line)
  let links ← manifestLines ((← sortedLinks sections.links).map Item.line)
  let temporary := (← sortedPadding sections.padding).flatMap Padding.temporaryPaths
  let grown ← manifestLines (temporary.map (temporaryLine work name))
  let cleared ← manifestLines (temporary.map unlinkLine)
  return (manifestHeader ++ directories ++ objects ++ links ++ grown ++ cleared,
    (emptyPayload work name, []) :: sections.payloads)

end S8000.Restore
