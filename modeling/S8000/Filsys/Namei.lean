import S8000.Filsys.Incore

/-! Path names and the system calls that use them. -/

namespace S8000.Filsys

open Foundation Foundation.Bytes

/-- What a system call does. -/
abbrev Sys := Prog Cmd Cmd.Ans

def ISVTX : ℕ := 512
def IREAD : ℕ := 256
def IWRITE : ℕ := 128
def IEXEC : ℕ := 64

inductive UError
  | EPERM
  | ENOENT
  | ioError
  | EACCES
  | EBUSY
  | EEXIST
  | ENOTDIR
  | EISDIR
  | EINVAL
  | ENFILE
  | noDevice
  | ENOTEMPTY
  | of (err : Errno)
deriving DecidableEq

/-- The part of the user area that says whose a system call is. -/
structure User where
  uid : ℤ
  gid : ℤ

def Attr.isDir (ip : Attr) : Bool := (ip.mode &&& IFMT : ℕ) = IFDIR

def Attr.hasBlocks (ip : Attr) : Bool := (ip.mode &&& IFMT : ℕ) = IFREG ∨ (ip.mode &&& IFMT : ℕ) = IFDIR

namespace Sys

section Commands

abbrev iget (i : ℕ) : Sys Unit := .cmd (Cmd.iget i)

abbrev iput (i : ℕ) : Sys Unit := .cmd (Cmd.iput i)

abbrev inode (i : ℕ) : Sys Attr := .cmd (Cmd.inode i)

abbrev seloop (i : ℕ) (name : Name) : Sys Looked := .cmd (Cmd.seloop i name)

abbrev readi (i off count : ℕ) : Sys (List Byte × Option Errno) := .cmd (Cmd.readi i off count)

abbrev writei (i off : ℕ) (data : List Byte) : Sys (List Byte × Option Errno) := .cmd (Cmd.writei i off data)

abbrev change (i : ℕ) (attr : Attr) : Sys Unit := .cmd (Cmd.change i attr)

abbrev makeInode (mode : ℕ) (uid gid dev : ℤ) : Sys (Option ℕ) := .cmd (Cmd.makeInode mode uid gid dev)

abbrev update : Sys Unit := .cmd Cmd.update

/-- Adds to the links of an inode. -/
def addLinks (i : ℕ) (n : ℤ) : Sys Unit := do
  let ip ← inode i
  change i { ip with nlink := ip.nlink + n }

/-- `itrunc`, which leaves special files alone. -/
def itrunc (i : ℕ) : Sys Unit := do
  let ip ← inode i
  if ip.hasBlocks then .cmd (Cmd.itrunc i) else pure ()

end Commands

section Paths

variable (u : User)

/-- Whether a user may use an inode. -/
def access (ip : Attr) (mode : ℕ) : Bool :=
  if u.uid = 0 then true
  else
    let m := if u.uid ≠ ip.uid then if u.gid ≠ ip.gid then (mode >>> 3) >>> 3 else mode >>> 3 else mode
    ip.mode &&& m ≠ 0

/-- What a name is sought for. -/
inductive Flag
  | seek
  | create
  | delete
deriving DecidableEq

/-- What `namei` gives: an inode, a directory with the place of an entry that may be made, or a directory with an entry
that may be deleted. -/
inductive Namei
  | found (ip : ℕ)
  | create (pdir off : ℕ) (dbuf : Name)
  | delete (pp off ino : ℕ) (dbuf : Name)
  | error (e : UError)

/-- The way out of `namei`. -/
def out (dp : ℕ) (e : UError) : Sys Namei := do
  iput dp
  pure (.error e)

/-- The loop at `cloop` in `namei`, over the components of a path. -/
def cloop (flag : Flag) : ℕ → List Name → Sys Namei
  | dp, [] => pure (.found dp)
  | dp, dbuf :: path => do
    let ip ← inode dp
    if ¬ access u ip IEXEC then out dp .EACCES
    else if ¬ ip.isDir then out dp .ENOTDIR
    else
      match ← seloop dp dbuf with
      | .failed => out dp .ioError
      | .missing off =>
        if flag = .create ∧ path = [] then
          if access u ip IWRITE then pure (.create dp off dbuf) else out dp .EACCES
        else out dp .ENOENT
      | .found off ino =>
        if flag = .delete ∧ path = [] then
          if access u ip IWRITE then pure (.delete dp off ino dbuf) else out dp .EACCES
        else do
          iput dp
          iget ino
          cloop flag ino path

/-- The inode that a path name leads to from the root directory. -/
def namei (flag : Flag) (path : List Name) : Sys Namei := do
  iget ROOTINO
  if path = [] ∧ flag ≠ .seek then out ROOTINO .ENOENT else cloop u flag ROOTINO path

/-- Writes an entry where `namei` found a place for it. -/
def wdir (pdir off : ℕ) (dbuf : Name) (ip : ℕ) : Sys (Option UError) := do
  let dp ← inode pdir
  if dp.nlink ≤ 0 then do
    iput pdir
    pure (some .ENOTDIR)
  else do
    let (_, err) ← writei pdir off (direct ip dbuf)
    iput pdir
    pure (err.map .of)

/-- Makes a new file. -/
def maknode (mode : ℕ) (dev : ℤ) (pdir off : ℕ) (dbuf : Name) : Sys (Except UError ℕ) := do
  match ← makeInode mode u.uid u.gid dev with
  | none =>
    iput pdir
    pure (.error (.of .ENOSPC))
  | some ip =>
    match ← wdir pdir off dbuf ip with
    | none => pure (.ok ip)
    | some e =>
      addLinks ip (-1)
      iput ip
      pure (.error e)

end Paths

section Calls

variable (u : User)

def link (target linkname : List Name) : Sys (Option UError) := do
  match ← namei u .seek target with
  | .found ip =>
    let attr ← inode ip
    if attr.isDir ∧ u.uid ≠ 0 then do
      iput ip
      pure (some .EPERM)
    else
      match ← namei u .create linkname with
      | .create pdir off dbuf =>
        let err ← wdir pdir off dbuf ip
        if err = none then addLinks ip 1
        iput ip
        pure err
      | .found xp =>
        iput xp
        iput ip
        pure (some .EEXIST)
      | .error e =>
        iput ip
        pure (some e)
      | _ => pure none
  | .error e => pure (some e)
  | _ => pure none

def unlink (path : List Name) : Sys (Option UError) := do
  match ← namei u .delete path with
  | .delete pp off ino dbuf =>
    iget ino
    let ip ← inode ino
    if ip.isDir ∧ u.uid ≠ 0 then do
      iput ino
      iput pp
      pure (some .EPERM)
    else do
      let (_, err) ← writei pp off (direct 0 dbuf)
      addLinks ino (-1)
      iput ino
      iput pp
      pure (err.map .of)
  | .error e => pure (some e)
  | _ => pure none

/-- Makes a file or a special file, whose mode and device are those of the file system. -/
def mknod (mode : ℕ) (dev : ℤ) (path : List Name) : Sys (Option UError) := do
  match ← namei u .create path with
  | .found ip =>
    iput ip
    pure (some .EEXIST)
  | .create pdir off dbuf =>
    match ← maknode u mode dev pdir off dbuf with
    | .ok ip =>
      iput ip
      pure none
    | .error e => pure (some e)
  | .error e => pure (some e)
  | _ => pure none

/-- How a file is opened. -/
structure Open where
  read : Bool
  write : Bool
  creat : Bool
  excl : Bool
  trunc : Bool

/-- What `open1` does with an inode that it gets. The inode stays in use when a descriptor for it is free and its device
can be opened. -/
def open1 (how : Open) (new free opens : Bool) (ip : ℕ) : Sys (Except UError ℕ) := do
  let attr ← inode ip
  let denied := how.read ∧ ¬ access u attr IREAD ∨ how.write ∧ ¬ access u attr IWRITE
  if ¬ new ∧ how.write ∧ attr.isDir then do
    iput ip
    pure (.error .EISDIR)
  else if ¬ new ∧ denied then do
    iput ip
    pure (.error .EACCES)
  else do
    if ¬ new ∧ how.trunc then itrunc ip
    if ¬ free then do
      iput ip
      pure (.error .ENFILE)
    else if ¬ opens then do
      iput ip
      pure (.error .noDevice)
    else pure (.ok ip)

/-- `v7fs_open` -/
def openFile (how : Open) (mode : ℕ) (free opens : Bool) (path : List Name) : Sys (Except UError ℕ) := do
  match ← namei u (if how.creat then .create else .seek) path with
  | .found ip =>
    if how.creat ∧ how.excl then do
      iput ip
      pure (.error .EEXIST)
    else open1 u how false free opens ip
  | .create pdir off dbuf =>
    match ← maknode u (mode &&& 4095 &&& (4095 - ISVTX)) 0 pdir off dbuf with
    | .ok ip => open1 u how true free opens ip
    | .error e => pure (.error e)
  | .error e => pure (.error e)
  | _ => pure (.error .ENOENT)

/-- `v7fs_truncate` -/
def truncate (path : List Name) (length : ℤ) : Sys (Option UError) := do
  match ← namei u .seek path with
  | .found ip =>
    if length = 0 then itrunc ip
    iput ip
    pure (if length = 0 then none else some .EINVAL)
  | .error e => pure (some e)
  | _ => pure none

/-- `chmod`, for the owner and the super-user. -/
def chmod (path : List Name) (fmode : ℕ) : Sys (Option UError) := do
  match ← namei u .seek path with
  | .found ip =>
    let attr ← inode ip
    if u.uid = attr.uid ∨ u.uid = 0 then do
      change ip { attr with mode := (attr.mode &&& IFMT) ||| (fmode &&& 4095) }
      iput ip
      pure none
    else do
      iput ip
      pure (some .EPERM)
  | .error e => pure (some e)
  | _ => pure none

/-- `v7fs_chown`, where an owner or a group may be left as it is. -/
def chown (path : List Name) (owner group : Option ℤ) : Sys (Option UError) := do
  match ← namei u .seek path with
  | .found ip =>
    let attr ← inode ip
    if owner.any (· ≠ attr.uid) ∧ u.uid ≠ 0 ∨ group.any (· ≠ attr.gid) ∧ u.uid ≠ 0 ∧ u.uid ≠ attr.uid then do
      iput ip
      pure (some .EPERM)
    else do
      if owner.isSome ∨ group.isSome then change ip { attr with uid := owner.getD attr.uid, gid := group.getD attr.gid }
      iput ip
      pure none
  | .error e => pure (some e)
  | _ => pure none

/-- `v7fs_stat` -/
def stat (path : List Name) : Sys (Except UError (ℕ × Attr)) := do
  match ← namei u .seek path with
  | .found ip =>
    let attr ← inode ip
    iput ip
    pure (.ok (ip, attr))
  | .error e => pure (.error e)
  | _ => pure (.error .ENOENT)

end Calls

end Sys

end S8000.Filsys
