import S8000.Restore.V7

namespace S8000.Restore

open Foundation Foundation.Bytes Foundation.Numerals V7
open Dump (Text)

/-- The pieces of at most `n` bytes that a file is read in. -/
def pieces (n : ℕ) (data : List Byte) : List (List Byte) :=
  (List.range ((data.length + n - 1) / n)).map fun k ↦ (data.drop (k * n)).take n

/-- The file system and the number of failures so far. -/
structure Replay where
  fs : Fs
  failures : ℕ

/-- A call with its `fail`. -/
def Replay.call (st : Replay) (r : Fs × Option Errno) : Replay :=
  ⟨r.1, st.failures + if r.2 = none then 0 else 1⟩

section Replay

variable (host : Host)

/-- The writes of `copy_file`, up to the first that fails. -/
def copyPieces (fs : Fs) (i : ℕ) : List (List Byte) → Fs × Option Errno
  | [] => (fs, none)
  | piece :: ps =>
    let r := v7fsWrite host fs i piece
    match r.2 with
    | some e => (r.1, some e)
    | none => copyPieces r.1 i ps

def copyFile (fs : Fs) (source path : Text) (mode : ℕ) : Fs × Option Errno :=
  match host.files source with
  | none => (fs, some .enoent)
  | some data =>
    let out := v7fsOpen host fs path (mode &&& 0o7777)
    match out.2 with
    | .error e => (out.1, some e)
    | .ok i => copyPieces host out.1 i (pieces 65536 data)

def setMetadata (e : Entry) (st : Replay) : Replay :=
  let st := st.call (v7fsChown host st.fs e.path e.uid e.gid)
  let st := st.call (v7fsChmod st.fs e.path (e.mode.toNat &&& 0o7777))
  st.call (v7fsUtimens st.fs e.path e.atime e.mtime)

/-- The call that an entry of the manifest stands for. -/
def perform (fs : Fs) (e : Entry) : Fs × Option Errno :=
  match e.kind with
  | 'd' => if e.path = ['/'] then (fs, none) else v7fsMkdir host fs e.path 0o700
  | 'f' => copyFile host fs e.aux e.path e.mode.toNat
  | 'b' => v7fsMknod host fs e.path true (e.mode.toNat &&& 0o7777) (BitVec.ofNat 16 (strtoul 0 e.aux))
  | 'c' => v7fsMknod host fs e.path false (e.mode.toNat &&& 0o7777) (BitVec.ofNat 16 (strtoul 0 e.aux))
  | 'h' => v7fsLink host fs e.aux e.path
  | 'u' => v7fsUnlink host fs e.path
  | _ => (fs, none)

/-- Whether the outcome of an entry is reported: a directory may exist, an unknown kind may not. -/
def isFailure (e : Entry) (r : Option Errno) : Bool :=
  match e.kind with
  | 'd' => r ≠ none ∧ r ≠ some .eexist
  | 'f' | 'b' | 'c' | 'h' | 'u' => r ≠ none
  | _ => true

/-- The body of the loop over the entries. -/
def step (st : Replay) (e : Entry) : Replay :=
  let r := perform host st.fs e
  let next : Replay := ⟨r.1, st.failures + if isFailure e r.2 then 1 else 0⟩
  if e.kind ≠ 'h' ∧ e.kind ≠ 'u' ∧ r.2 = none then setMetadata host e next else next

/-- The body of the second loop, over the directories. -/
def resetDirectory (st : Replay) (e : Entry) : Replay :=
  if e.kind = 'd' then setMetadata host e st else st

def replay (fs : Fs) (entries : List Entry) : Replay :=
  entries.reverse.foldl (resetDirectory host) (entries.foldl (step host) ⟨fs, 0⟩)

/-- `taperestore ... restore`; a bad manifest leaves the file system alone. -/
def restore (fs : Fs) (manifest : Text) : Replay :=
  match readManifest manifest with
  | none => ⟨fs, 1⟩
  | some entries => replay host fs entries

end Replay

section Metadata

variable {host : Host} {e : Entry} {st : Replay}

/-- What `set_metadata` makes of an inode; the access time that `v7fs_chown` stores is replaced. -/
def Entry.stamp (host : Host) (e : Entry) (p : Inode) : Inode :=
  { p with
    mode := e.mode.toNat &&& 0o7777
    uid := chownId host p.uid e.uid
    gid := chownId host p.gid e.gid
    atime := BitVec.ofInt 32 e.atime
    mtime := BitVec.ofInt 32 e.mtime }

theorem setMetadata_of_ok {i : ℕ} (h : st.fs.namei e.path = .ok i) :
    (∀ j, (setMetadata host e st).fs.inodes.get? j =
      if i = j then (st.fs.inodes.get? j).map (e.stamp host) else st.fs.inodes.get? j) ∧
    (setMetadata host e st).failures = st.failures := by
  have hmodify : ∀ (fs : Fs) {f : Inode → Inode}, (∀ p, (f p).content = p.content) →
      fs.namei e.path = .ok i → (fs.refresh.modify i f).namei e.path = .ok i := fun fs f hf h ↦
    (Fs.namei_congr (fun j ↦ Fs.slots?_modify hf fs.refresh i j) e.path).trans
      ((Fs.namei_refresh fs e.path).trans h)
  have hchown := hmodify st.fs (f := fun p ↦ if e.uid = -1 ∧ e.gid = -1 then p else { p with
    uid := chownId host p.uid e.uid, gid := chownId host p.gid e.gid, atime := now host st.fs.refresh })
    (fun p ↦ by split <;> rfl) h
  have hchmod := hmodify _ (f := fun p ↦ { p with mode := e.mode.toNat &&& 0o7777 &&& 0o7777 })
    (fun _ ↦ rfl) hchown
  simp only [setMetadata, Replay.call, v7fsChown, v7fsChmod, v7fsUtimens, onInode_of_ok h,
    onInode_of_ok hchown, onInode_of_ok hchmod, if_true, Nat.add_zero]
  refine ⟨fun j ↦ ?_, trivial⟩
  simp only [Fs.get?_modify, Fs.inodes_refresh]
  by_cases hj : i = j
  · simp only [if_pos hj, Option.map_map]
    congr 1
    funext p
    simp only [Function.comp_apply, Entry.stamp, Nat.and_assoc, Nat.and_self]
    split
    · rename_i hids
      simp only [chownId, hids.1, hids.2, if_true]
    · rfl
  · simp only [if_neg hj]

theorem setMetadata_of_error {x : Errno} (h : st.fs.namei e.path = .error x) :
    (setMetadata host e st).fs.inodes = st.fs.inodes ∧
      (setMetadata host e st).failures = st.failures + 3 := by
  have href : ∀ {fs : Fs}, fs.namei e.path = .error x → fs.refresh.namei e.path = .error x :=
    fun {fs} h ↦ (Fs.namei_refresh fs e.path).trans h
  simp only [setMetadata, Replay.call, v7fsChown, v7fsChmod, v7fsUtimens, onInode_of_error h,
    onInode_of_error (href h), onInode_of_error (href (href h))]
  exact ⟨rfl, rfl⟩

/-- `set_metadata` leaves the tree of names alone. -/
theorem slots?_setMetadata (i : ℕ) : (setMetadata host e st).fs.slots? i = st.fs.slots? i := by
  unfold Fs.slots?
  cases h : st.fs.namei e.path with
  | error x => rw [(setMetadata_of_error h).1]
  | ok k =>
    rw [(setMetadata_of_ok h).1]
    split
    · cases st.fs.inodes.get? i <;> rfl
    · rfl

end Metadata

end S8000.Restore
