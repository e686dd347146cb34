import S8000.Restore.Entry
import S8000.Foundation.Namespace

namespace S8000.Restore

open Foundation Foundation.Bytes Foundation.Numerals
open Dump (Text)

/-! The file system calls that the replay makes, as the super-user makes them: `main` takes user
and group 0 before the first call, so every permission check of the kernel passes. -/

namespace V7

abbrev Time := BitVec 32

/-- A slot of a directory; `none` is one with inode number 0. -/
abbrev Slot := Option (Text × ℕ)

inductive Content
  | directory (slots : List Slot)
  | regular (data : List Byte)
  | special (block : Bool) (rdev : Word)
deriving DecidableEq

/-- `mode` holds the bits of `07777`; the type is in `content`. -/
structure Inode where
  content : Content
  mode : ℕ
  nlink : ℕ
  uid : Word
  gid : Word
  atime : Time
  mtime : Time
deriving DecidableEq

/-- `calls` counts the calls made so far. -/
structure Fs where
  inodes : Dict ℕ Inode
  calls : ℕ

inductive Errno
  | enoent
  | enxio
  | eexist
  | enotdir
  | eisdir
  | enospc
deriving DecidableEq

/-- What the host, its clock and the state of the free lists decide. -/
structure Host where
  clock : ℕ → Time
  signedChar : Bool
  files : Text → Option (List Byte)
  /-- The next number on the free inode list. -/
  pick : Fs → Option ℕ
  /-- Whether a directory can grow by a slot. -/
  slotRoom : Fs → ℕ → Bool
  /-- How many of the bytes find room in a file. -/
  dataRoom : Fs → ℕ → List Byte → ℕ
  /-- A write through the block device of the disk itself. -/
  raw : Fs → List Byte → Fs

def rootIno : ℕ := 2

/-- The components of a path name, each cut to `DIRSIZ`. -/
def components (path : Text) : List Text := ((path.splitOn '/').filter (· ≠ [])).map (·.take 14)

/-- The first live slot of a name. -/
def lookup (n : Text) : List Slot → Option ℕ
  | [] => none
  | none :: ss => lookup n ss
  | some (m, i) :: ss => if m = n then some i else lookup n ss

/-- A new entry takes the first free slot, or extends the directory. -/
def enterSlot (n : Text) (i : ℕ) : List Slot → List Slot
  | [] => [some (n, i)]
  | none :: ss => some (n, i) :: ss
  | some e :: ss => some e :: enterSlot n i ss

/-- Clear the first live slot of a name. -/
def clearSlot (n : Text) : List Slot → List Slot
  | [] => []
  | none :: ss => none :: clearSlot n ss
  | some (m, i) :: ss => if m = n then none :: ss else some (m, i) :: clearSlot n ss

def Content.slots? : Content → Option (List Slot)
  | .directory ss => some ss
  | _ => none

namespace Fs

def slots? (fs : Fs) (i : ℕ) : Option (List Slot) := (fs.inodes.get? i).bind fun n ↦ n.content.slots?

/-- The inode that a name of a directory leads to. -/
def child (fs : Fs) (i : ℕ) (n : Text) : Option ℕ := (fs.slots? i).bind (lookup n)

def modify (fs : Fs) (i : ℕ) (f : Inode → Inode) : Fs :=
  match fs.inodes.get? i with
  | none => fs
  | some n => { fs with inodes := fs.inodes.set i (f n) }

def free (fs : Fs) (i : ℕ) : Fs := { fs with inodes := fs.inodes.filterKeys (· ≠ i) }

/-- `v7_refreshclock`. -/
def refresh (fs : Fs) : Fs := { fs with calls := fs.calls + 1 }

/-- The search loop of `namei`. -/
def walk (fs : Fs) (i : ℕ) : List Text → Except Errno ℕ
  | [] => .ok i
  | n :: p =>
    match fs.slots? i with
    | none => .error .enotdir
    | some ss =>
      match lookup n ss with
      | none => .error .enoent
      | some k => walk fs k p

/-- `namei` with flag 0. -/
def namei (fs : Fs) (path : Text) : Except Errno ℕ := fs.walk rootIno (components path)

/-- The directory of the last component of a path, with its slots. -/
def parentOf (fs : Fs) (path : Text) : Except Errno (ℕ × List Slot × Text) :=
  match (components path).getLast? with
  | none => .error .enoent
  | some n => do
    let d ← fs.walk rootIno (components path).dropLast
    match fs.slots? d with
    | none => .error .enotdir
    | some ss => .ok (d, ss, n)

/-- `namei` with flag 1: the inode of the name, or the directory to make it in. -/
def nameiCreate (fs : Fs) (path : Text) : Except Errno (ℕ ⊕ ℕ × Text) := do
  let (d, ss, n) ← fs.parentOf path
  match lookup n ss with
  | some k => return .inl k
  | none => return .inr (d, n)

/-- `namei` with flag 2: the directory, the name and its inode. -/
def nameiDelete (fs : Fs) (path : Text) : Except Errno (ℕ × Text × ℕ) := do
  let (d, ss, n) ← fs.parentOf path
  match lookup n ss with
  | some k => return (d, n, k)
  | none => throw .enoent

@[simp] theorem inodes_refresh (fs : Fs) : fs.refresh.inodes = fs.inodes := rfl

@[simp] theorem slots?_refresh (fs : Fs) (i : ℕ) : fs.refresh.slots? i = fs.slots? i := rfl

theorem get?_modify (fs : Fs) (i j : ℕ) (f : Inode → Inode) :
    (fs.modify i f).inodes.get? j = if i = j then (fs.inodes.get? j).map f else fs.inodes.get? j := by
  unfold modify
  split
  · rename_i h
    split
    · rename_i hj
      rw [← hj, h]
      rfl
    · rfl
  · rename_i p h
    rw [Dict.get?_set]
    split
    · rename_i hj
      rw [← hj, h]
      rfl
    · rfl

/-- A change of the metadata leaves the directories alone. -/
theorem slots?_modify {f : Inode → Inode} (hf : ∀ p, (f p).content = p.content) (fs : Fs) (i j : ℕ) :
    (fs.modify i f).slots? j = fs.slots? j := by
  unfold slots?
  rw [get?_modify]
  split
  · cases fs.inodes.get? j with
    | none => rfl
    | some p => simp only [Option.map_some, Option.bind_some, hf]
  · rfl

/-- The search reads the directories only. -/
theorem walk_congr {fs fs' : Fs} (h : ∀ i, fs'.slots? i = fs.slots? i) (i : ℕ) (p : List Text) :
    fs'.walk i p = fs.walk i p := by
  induction p generalizing i with
  | nil => rfl
  | cons n p ih =>
    rw [walk, walk, h]
    simp only [ih]

theorem namei_congr {fs fs' : Fs} (h : ∀ i, fs'.slots? i = fs.slots? i) (path : Text) :
    fs'.namei path = fs.namei path := walk_congr h _ _

end Fs

section Calls

variable (host : Host)

/-- `v7_time`. -/
def now (fs : Fs) : Time := host.clock fs.calls

/-- The number of a free inode. -/
def ialloc (fs : Fs) : Option ℕ := (host.pick fs).filter fun i ↦ rootIno ≤ i ∧ i ∉ fs.inodes

/-- The parent of a name that needs a new slot is marked as updated by the search. -/
def markGrown (fs : Fs) (d : ℕ) : Fs :=
  fs.modify d fun p ↦
    if p.content.slots?.all (none ∈ ·) then p else { p with mtime := now host fs }

/-- Write a directory entry. -/
def wdir (fs : Fs) (d : ℕ) (n : Text) (i : ℕ) : Fs × Option Errno :=
  match fs.slots? d with
  | none => (fs, some .enotdir)
  | some ss =>
    if none ∈ ss ∨ host.slotRoom fs d then
      (fs.modify d fun p ↦
        { p with content := .directory (enterSlot n i ss), mtime := now host fs }, none)
    else (markGrown host fs d, some .enospc)

/-- Make a new file. -/
def maknode (fs : Fs) (d : ℕ) (n : Text) (content : Content) (mode : ℕ) : Fs × Except Errno ℕ :=
  match ialloc host fs with
  | none => (markGrown host fs d, .error .enospc)
  | some i =>
    let made : Inode := ⟨content, mode, 1, 0, 0, now host fs, now host fs⟩
    let r := wdir host { fs with inodes := fs.inodes.set i made } d n i
    match r.2 with
    | none => (r.1, .ok i)
    | some e => (r.1.free i, .error e)

def v7fsLink (fs : Fs) (oldpath newpath : Text) : Fs × Option Errno :=
  let fs := fs.refresh
  match fs.namei oldpath, fs.nameiCreate newpath with
  | .error e, _ => (fs, some e)
  | .ok _, .error e => (fs, some e)
  | .ok _, .ok (.inl _) => (fs, some .eexist)
  | .ok i, .ok (.inr (d, n)) =>
    let r := wdir host fs d n i
    match r.2 with
    | none => (r.1.modify i fun p ↦ { p with nlink := p.nlink + 1 }, none)
    | some e => (r.1, some e)

/-- Drop a link; the last one frees the inode, unless it is the root that the kernel holds. -/
def dropLink (fs : Fs) (i : ℕ) : Fs :=
  if (fs.inodes.get? i).all (·.nlink ≤ 1) ∧ i ≠ rootIno then fs.free i
  else fs.modify i fun p ↦ { p with nlink := p.nlink - 1 }

def v7fsUnlink (fs : Fs) (path : Text) : Fs × Option Errno :=
  let fs := fs.refresh
  match fs.nameiDelete path with
  | .error e => (fs, some e)
  | .ok (d, n, i) =>
    let cleared := fs.modify d fun p ↦
      { p with content := .directory (clearSlot n (p.content.slots?.getD [])), mtime := now host fs }
    (dropLink cleared i, none)

/-- A call that changes the inode of a path. -/
def onInode (fs : Fs) (path : Text) (f : Inode → Inode) : Fs × Option Errno :=
  match fs.namei path with
  | .error e => (fs, some e)
  | .ok i => (fs.modify i f, none)

def v7fsChmod (fs : Fs) (path : Text) (mode : ℕ) : Fs × Option Errno :=
  onInode fs.refresh path fun p ↦ { p with mode := mode &&& 0o7777 }

def maxUidGid : ℕ := 32767

/-- `idmap_tofsid` with an empty map. -/
def mapHostId (hostid : BitVec 32) : Word :=
  if hostid = 65534 ∨ maxUidGid < hostid.toNat then BitVec.ofNat 16 maxUidGid else hostid.setWidth 16

/-- An id kept in a `char` and read back. -/
def throughChar (id : Word) : Word :=
  if host.signedChar then (id.setWidth 8).signExtend 16 else (id.setWidth 8).setWidth 16

/-- The id that `v7fs_chown` stores for `id` over `old`. -/
def chownId (old : Word) (id : BitVec 32) : Word :=
  if id = -1 then old else throughChar host (mapHostId id)

def v7fsChown (fs : Fs) (path : Text) (owner group : BitVec 32) : Fs × Option Errno :=
  onInode fs.refresh path fun p ↦
    if owner = -1 ∧ group = -1 then p
    else { p with
      uid := chownId host p.uid owner
      gid := chownId host p.gid group
      atime := now host fs.refresh }

def v7fsUtimens (fs : Fs) (path : Text) (atime mtime : ℤ) : Fs × Option Errno :=
  onInode fs.refresh path fun p ↦
    { p with atime := BitVec.ofInt 32 atime, mtime := BitVec.ofInt 32 mtime }

/-- `dirname`. -/
def dirname (path : Text) : Text :=
  let stem := ((path.rdropWhile (· = '/')).rdropWhile (· ≠ '/')).rdropWhile (· = '/')
  if stem ≠ [] then stem else if path.head? = some '/' then ['/'] else ['.']

/-- The way out of a `v7fs_mkdir` that failed after its directory was made. -/
def undoMkdir (fs : Fs) (path : Text) (e : Errno) : Fs × Option Errno :=
  let fs := (v7fsUnlink host fs (path ++ ['/', '.', '.'])).1
  let fs := (v7fsUnlink host fs (path ++ ['/', '.'])).1
  let fs := (v7fsUnlink host fs path).1
  (fs, some e)

/-- The owner and the permissions of a new directory. -/
def ownMkdir (fs : Fs) (path : Text) (mode : ℕ) : Fs × Option Errno :=
  match fs.namei path with
  | .error e => (fs, some e)
  | .ok i => v7fsChmod (fs.modify i fun p ↦ { p with uid := 0, mtime := now host fs }) path mode

/-- The links of a new directory, and its owner. -/
def finishMkdir (fs : Fs) (path : Text) (mode : ℕ) : Fs × Option Errno :=
  let r := v7fsLink host fs path (path ++ ['/', '.'])
  match r.2 with
  | some e => (r.1, some e)
  | none =>
    let r := v7fsLink host r.1 (dirname path) (path ++ ['/', '.', '.'])
    match r.2 with
    | some e => (r.1, some e)
    | none => ownMkdir host r.1 path mode

def v7fsMkdir (fs : Fs) (path : Text) (mode : ℕ) : Fs × Option Errno :=
  let fs := fs.refresh
  match fs.nameiCreate path with
  | .error e => (fs, some e)
  | .ok (.inl _) => (fs, some .eexist)
  | .ok (.inr (d, n)) =>
    let made := maknode host fs d n (.directory []) 0o700
    match made.2 with
    | .error e => (made.1, some e)
    | .ok _ =>
      let r := finishMkdir host made.1 path mode
      match r.2 with
      | none => r
      | some e => undoMkdir host r.1 path e

def v7fsMknod (fs : Fs) (path : Text) (block : Bool) (mode : ℕ) (rdev : Word) : Fs × Option Errno :=
  let fs := fs.refresh
  match fs.nameiCreate path with
  | .error e => (fs, some e)
  | .ok (.inl _) => (fs, some .eexist)
  | .ok (.inr (d, n)) =>
    let made := maknode host fs d n (.special block rdev) (mode &&& 0o7777)
    match made.2 with
    | .error e => (made.1, some e)
    | .ok _ => (made.1, none)

/-- The disk is block device 0; it has no character devices. -/
def isDisk : Content → Bool
  | .special block rdev => block ∧ high rdev = 0
  | _ => false

/-- `v7fs_open` for writing, with `O_CREAT` and `O_TRUNC`. -/
def v7fsOpen (fs : Fs) (path : Text) (mode : ℕ) : Fs × Except Errno ℕ :=
  let fs := fs.refresh
  match fs.nameiCreate path with
  | .error e => (fs, .error e)
  | .ok (.inr (d, n)) => maknode host fs d n (.regular []) (mode &&& 0o6777)
  | .ok (.inl i) =>
    match (fs.inodes.get? i).map Inode.content with
    | none => (fs, .error .enoent)
    | some (.directory _) => (fs, .error .eisdir)
    | some (.regular _) =>
      (fs.modify i fun p ↦ { p with content := .regular [], mtime := now host fs }, .ok i)
    | some (.special block rdev) =>
      if isDisk (.special block rdev) then (fs, .ok i) else (fs, .error .enxio)

/-- `v7fs_write` at the end of an open file. -/
def v7fsWrite (fs : Fs) (i : ℕ) (data : List Byte) : Fs × Option Errno :=
  let fs := fs.refresh
  match (fs.inodes.get? i).map Inode.content with
  | some (.regular old) =>
    (fs.modify i fun p ↦ { p with
        content := .regular (old ++ data.take (host.dataRoom fs i data)), mtime := now host fs },
      if data.length ≤ host.dataRoom fs i data then none else some .enospc)
  | _ => (host.raw fs data, none)

end Calls

section OnInode

variable {fs : Fs} {path : Text} {f : Inode → Inode}

@[simp] theorem Fs.namei_refresh (fs : Fs) (path : Text) : fs.refresh.namei path = fs.namei path :=
  Fs.namei_congr (fun i ↦ Fs.slots?_refresh fs i) path

theorem onInode_of_ok {i : ℕ} (h : fs.namei path = .ok i) :
    onInode fs.refresh path f = (fs.refresh.modify i f, none) := by
  rw [onInode, Fs.namei_refresh, h]

theorem onInode_of_error {e : Errno} (h : fs.namei path = .error e) :
    onInode fs.refresh path f = (fs.refresh, some e) := by
  rw [onInode, Fs.namei_refresh, h]

end OnInode

end V7

end S8000.Restore
