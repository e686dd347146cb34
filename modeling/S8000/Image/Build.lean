import S8000.Restore.Replay

namespace S8000.Image

open Foundation Foundation.Bytes Restore Restore.V7
open Dump (Text)

section HostTree

mutual

/-- What stands under a name of a host directory, by its `lstat`. -/
inductive Node
  | regular (mode : ℕ) (data : List Byte)
  | directory (mode : ℕ) (entries : Entries)
  /-- A symbolic link or a special file. -/
  | other

/-- The names of a host directory, in the order of `readdir`. -/
inductive Entries
  | nil
  | cons (name : Text) (node : Node) (rest : Entries)

end

end HostTree

/-- `hash_file`: FNV-1a. -/
def hashFile (data : List Byte) : BitVec 64 :=
  data.foldl (fun h b ↦ (h ^^^ b.setWidth 64) * 1099511628211#64) 1469598103934665603#64

structure DedupEnt where
  size : ℕ
  hash : BitVec 64
  fspath : Text

/-- `dedup_lookup`. -/
def dedupLookup (ded : List DedupEnt) (size : ℕ) (hash : BitVec 64) : Option Text :=
  (ded.find? fun e ↦ e.size = size ∧ e.hash = hash).map DedupEnt.fspath

def skipName (n : Text) : Bool :=
  n = ['.'] ∨ n = ['.', '.'] ∨ n.take 2 = ['.', '_'] ∨ n = ['.', 'D', 'S', '_', 'S', 't', 'o', 'r', 'e']

/-- A file that was copied to a path, and what stood on the image and in the table before. -/
structure Copied where
  fs : Fs
  ded : List DedupEnt
  fspath : Text
  mode : ℕ
  data : List Byte

/-- The path that the file is linked to first. -/
def Copied.target (c : Copied) : Option Text :=
  if 0 < c.data.length then dedupLookup c.ded c.data.length (hashFile c.data) else none

/-- The image, `g_ded`, and the copies made so far with the last one first. -/
structure Build where
  fs : Fs
  ded : List DedupEnt
  log : List Copied

section Run

variable (host : Host)

/-- The plain copy of `copy_file`. -/
def Build.write (st : Build) (c : Copied) : Build :=
  let out := v7fsOpen host st.fs c.fspath (c.mode &&& 0o7777)
  match out.2 with
  | .error _ => { st with fs := out.1 }
  | .ok i =>
    let written := (pieces 65536 c.data).foldl (fun fs piece ↦ (v7fsWrite host fs i piece).1) out.1
    { fs := (v7fsChown host written c.fspath 0 0).1
      ded := if 0 < c.data.length then st.ded ++ [⟨c.data.length, hashFile c.data, c.fspath⟩] else st.ded
      log := c :: st.log }

/-- `copy_file`. -/
def copyFile (st : Build) (fspath : Text) (mode : ℕ) (data : List Byte) : Build :=
  let c : Copied := ⟨st.fs, st.ded, fspath, mode, data⟩
  match c.target with
  | none => st.write host c
  | some target =>
    let r := v7fsLink host st.fs target fspath
    match r.2 with
    | none => { st with fs := r.1, log := c :: st.log }
    | some _ => Build.write host { st with fs := r.1 } c

/-- `fp` of `copy_tree`. -/
def entryPath (fsdir name : Text) : Text := fsdir ++ (if fsdir = ['/'] then [] else ['/']) ++ name

mutual

/-- The body of the loop of `copy_tree`. -/
def copyNode (st : Build) (fp : Text) : Node → Build
  | .regular mode data => copyFile host st fp mode data
  | .directory mode entries =>
    let r := v7fsMkdir host st.fs fp (mode &&& 0o7777)
    if r.2 = none ∨ r.2 = some .eexist then
      copyTree { st with fs := (v7fsChown host r.1 fp 0 0).1 } fp entries
    else { st with fs := r.1 }
  | .other => st

/-- `copy_tree`. -/
def copyTree (st : Build) (fsdir : Text) : Entries → Build
  | .nil => st
  | .cons name node rest =>
    let st := if skipName name then st else copyNode st (entryPath fsdir name) node
    copyTree st fsdir rest

end

/-- One pair of arguments of `main`. -/
def copyArgument (st : Build) (argument : Entries × Text) : Build :=
  let dst := argument.2
  let fs := if dst = ['/'] then st.fs else (v7fsChown host (v7fsMkdir host st.fs dst 0o755).1 dst 0 0).1
  copyTree host { st with fs := fs } dst argument.1

/-- What `v7fs_mkfs` makes. -/
def mkfs (time : Time) : Fs where
  inodes := Dict.set ∅ rootIno
    ⟨.directory [some (['.'], rootIno), some (['.', '.'], rootIno)], 0o777, 2, 0, 0, time, time⟩
  calls := 0

def mkv7img (arguments : List (Entries × Text)) : Build :=
  arguments.foldl (copyArgument host) ⟨mkfs (host.clock 0), [], []⟩

end Run

end S8000.Image
