import S8000.Filsys.Directory
import S8000.Filsys.StoreRuns
import S8000.Foundation.Programs

/-! What the system calls ask of the file system: inodes that are counted while they are in use, and directories that are
searched. -/

namespace S8000.Filsys

open Foundation Foundation.Bytes

section Commands

/-- What an inode in core says about a file besides its contents. -/
structure Attr where
  mode : ℕ
  nlink : ℤ
  uid : ℤ
  gid : ℤ

inductive Cmd
  | iget (i : ℕ)
  | iput (i : ℕ)
  | inode (i : ℕ)
  | seloop (i : ℕ) (name : Name)
  | readi (i off count : ℕ)
  | writei (i off : ℕ) (data : List Byte)
  | itrunc (i : ℕ)
  | change (i : ℕ) (attr : Attr)
  | makeInode (mode : ℕ) (uid gid dev : ℤ)
  | update

/-- What a command is answered with. -/
abbrev Cmd.Ans : Cmd → Type
  | .iget _ => Unit
  | .iput _ => Unit
  | .inode _ => Attr
  | .seloop _ _ => Looked
  | .readi _ _ _ => List Byte × Option Errno
  | .writei _ _ _ => List Byte × Option Errno
  | .itrunc _ => Unit
  | .change _ _ => Unit
  | .makeInode _ _ _ _ => Option ℕ
  | .update => Unit

/-- The part of a command that concerns the files, and the event that it is. -/
inductive Cmd.Is : (c : Cmd) → c.Ans → Event → Prop
  | readi (i off count : ℕ) (bytes : List Byte) (err : Option Errno) :
      Cmd.Is (.readi i off count) (bytes, err) (.readi i off count bytes err)
  | writei (i off : ℕ) (data rest : List Byte) (err : Option Errno) :
      Cmd.Is (.writei i off data) (rest, err) (.writei i off data rest err)
  | itrunc (i : ℕ) : Cmd.Is (.itrunc i) () (.itrunc i)
  | change (i : ℕ) (attr : Attr) : Cmd.Is (.change i attr) () (.change i attr.mode attr.nlink attr.uid attr.gid)
  | full (mode : ℕ) (uid gid dev : ℤ) : Cmd.Is (.makeInode mode uid gid dev) none (.makeInode none mode uid gid dev)
  | update : Cmd.Is .update () .update

end Commands

section Incore

/-- A mounted file system, and how often each inode is in use. -/
structure Incore where
  v : Volume
  iCount : ℕ → ℕ

/-- The files, and how often each is in use. -/
structure Files where
  file : ℕ → Option Object
  iCount : ℕ → ℕ

def Incore.files (s : Incore) : Files := ⟨s.v.object, s.iCount⟩

def Object.attr (o : Object) : Attr := ⟨o.mode, o.nlink, o.uid, o.gid⟩

def Inode.attr (ip : Inode) : Attr := ⟨ip.iMode, ip.iNlink, ip.iUid, ip.iGid⟩

def more (n : ℕ → ℕ) (i : ℕ) : ℕ → ℕ := Function.update n i (n i + 1)

def less (n : ℕ → ℕ) (i : ℕ) : ℕ → ℕ := Function.update n i (n i - 1)

/-- What a command does in the kernel. An inode comes into core when it is first used, and `iput` does its work when it
is last used. -/
inductive Does (s : Incore) : (c : Cmd) → c.Ans → Incore → Prop
  | iget {i : ℕ} {w : Volume} (h : Act s.v (.iget i) w) : Does s (.iget i) () ⟨w, more s.iCount i⟩
  | again {ip : Inode} (hip : ip ∈ s.v.inode) : Does s (.iget ip.iNumber) () ⟨s.v, more s.iCount ip.iNumber⟩
  | iput {i : ℕ} (hcount : 1 < s.iCount i) : Does s (.iput i) () ⟨s.v, less s.iCount i⟩
  | last {i : ℕ} {w : Volume} (hcount : s.iCount i = 1) (h : Act s.v (.iput i) w) : Does s (.iput i) () ⟨w, less s.iCount i⟩
  | inode {ip : Inode} (hip : ip ∈ s.v.inode) : Does s (.inode ip.iNumber) ip.attr s
  | seloop {ip : Inode} {name : Name} {r : Looked} (hip : ip ∈ s.v.inode) (hdir : (ip.iMode &&& IFMT : ℕ) = IFDIR)
      (h : seloop s.v ip.toFile name = r) : Does s (.seloop ip.iNumber name) r s
  | makeInode {i mode : ℕ} {uid gid dev : ℤ} {w : Volume} (h : Act s.v (.makeInode (some i) mode uid gid dev) w) :
      Does s (.makeInode mode uid gid dev) (some i) ⟨w, more s.iCount i⟩
  | act {c : Cmd} {x : c.Ans} {e : Event} {w : Volume} (he : c.Is x e) (h : Act s.v e w) : Does s c x ⟨w, s.iCount⟩

/-- What a command does to the files. -/
inductive Sees (s : Files) : (c : Cmd) → c.Ans → Files → Prop
  | iget {i : ℕ} {o : Object} (h : s.file i = some o) : Sees s (.iget i) () ⟨s.file, more s.iCount i⟩
  | iput {i : ℕ} (hcount : 1 < s.iCount i) : Sees s (.iput i) () ⟨s.file, less s.iCount i⟩
  | last {i : ℕ} {o : Object} (hcount : s.iCount i = 1) (h : s.file i = some o) (hnlink : 0 < o.nlink) :
      Sees s (.iput i) () ⟨s.file, less s.iCount i⟩
  | free {i : ℕ} {o : Object} (hcount : s.iCount i = 1) (h : s.file i = some o) (hnlink : o.nlink ≤ 0) :
      Sees s (.iput i) () ⟨Function.update s.file i none, less s.iCount i⟩
  | inode {i : ℕ} {o : Object} (h : s.file i = some o) : Sees s (.inode i) o.attr s
  | seloop {i : ℕ} {name : Name} {r : Looked} {o : Object} (h : s.file i = some o) (hsearch : o.Search name r) :
      Sees s (.seloop i name) r s
  | makeInode {i mode : ℕ} {uid gid dev : ℤ} {file' : ℕ → Option Object}
      (h : Spec s.file (.makeInode (some i) mode uid gid dev) file') :
      Sees s (.makeInode mode uid gid dev) (some i) ⟨file', more s.iCount i⟩
  | act {c : Cmd} {x : c.Ans} {e : Event} {file' : ℕ → Option Object} (he : c.Is x e) (h : Spec s.file e file') :
      Sees s c x ⟨file', s.iCount⟩

variable {isize fsize : ℤ} {nobody owned : List ℤ} {s t : Incore} {c : Cmd} {x : c.Ans}

/-- Every command does to the files what their users see. -/
theorem Held.does (h : Held isize fsize nobody ⟨s.v, owned⟩) (hdoes : Does s c x t) :
    (∃ owned', Held isize fsize nobody ⟨t.v, owned'⟩) ∧ Sees s.files c x t.files := by
  cases hdoes with
  | iget hact =>
    obtain ⟨hheld, hspec⟩ := h.act hact
    refine ⟨hheld, ?_⟩
    unfold Incore.files
    generalize s.v.object = file at hspec ⊢
    generalize Volume.object _ = file' at hspec ⊢
    cases hspec with
    | iget hfile => exact .iget hfile
  | again hip => exact ⟨⟨owned, h⟩, .iget (h.object_of_mem hip)⟩
  | iput hcount => exact ⟨⟨owned, h⟩, .iput hcount⟩
  | last hcount hact =>
    obtain ⟨hheld, hspec⟩ := h.act hact
    refine ⟨hheld, ?_⟩
    unfold Incore.files
    generalize s.v.object = file at hspec ⊢
    generalize Volume.object _ = file' at hspec ⊢
    cases hspec with
    | iput hfile hnlink => exact .last hcount hfile hnlink
    | last hfile hnlink => exact .free hcount hfile hnlink
  | @inode ip hip =>
    have hinode := @Sees.inode s.files ip.iNumber _ (h.object_of_mem hip)
    exact ⟨⟨owned, h⟩, hinode⟩
  | seloop hip hdir hrun =>
    refine ⟨⟨owned, h⟩, .seloop (h.object_of_mem hip) ?_⟩
    rw [← hrun]
    exact seloop_spec (.inr hdir) s.v _
  | makeInode hact =>
    obtain ⟨hheld, hspec⟩ := h.act hact
    exact ⟨hheld, .makeInode hspec⟩
  | act he hact =>
    obtain ⟨hheld, hspec⟩ := h.act hact
    exact ⟨hheld, .act he hspec⟩

end Incore

end S8000.Filsys
