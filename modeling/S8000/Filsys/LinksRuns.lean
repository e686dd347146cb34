import S8000.Filsys.Mkdir

/-! The links of inodes in every run of the system calls. -/

namespace S8000.Filsys

open Foundation Foundation.Bytes Foundation.Buffer

section Kernel

/-- An open file, and whether it is open for writing. -/
structure OpenFile where
  ip : ℕ
  write : Bool
deriving DecidableEq

/-- A mounted file system, and the files that are open. -/
structure Kernel where
  core : Incore
  ofile : List OpenFile

/-- The root directory is in use as such and as the current directory. -/
def rooted (i : ℕ) : ℕ := if i = ROOTINO then 2 else 0

/-- `v7fs_init` on a disk. -/
def Kernel.init (stale : Buffer) (disk : ℤ → Buffer) : Kernel := ⟨⟨iinit stale disk, rooted⟩, []⟩

/-- What a command does in the kernel, where links are to stay exact. -/
structure Acts (exact : Prop) (s : Incore) (c : Cmd) (x : c.Ans) (t : Incore) : Prop where
  acts : Does s c x t
  spares : exact → c.Spares s.files

inductive Request
  | mknod (mode : ℕ) (dev : ℤ) (path : List Name)
  | link (target linkname : List Name)
  | unlink (path : List Name)
  | mkdir (path : List Name) (mode : ℕ)
  | rmdir (path : List Name)
  | openFile (how : Sys.Open) (mode : ℕ) (path : List Name)
  | close (f : OpenFile)
  | read (f : OpenFile) (off count : ℕ)
  | write (f : OpenFile) (off : ℕ) (data : List Byte)
  | truncate (path : List Name) (length : ℤ)
  | chmod (path : List Name) (fmode : ℕ)
  | chown (path : List Name) (owner group : Option ℤ)
  | stat (path : List Name)
  | sync
  | init

/-- The calls of any user. Where links are to stay exact, none of them takes the last link from a directory with entries,
as those of the super-user can, or empties a directory. -/
inductive Serves (exact : Prop) (s : Kernel) : Request → Kernel → Prop
  | mknod {u : User} {mode : ℕ} {dev : ℤ} {path : List Name} {r : Option UError} {t : Incore}
      (h : Exec (Acts exact) s.core (Sys.mknod u mode dev path) r t) : Serves exact s (.mknod mode dev path) ⟨t, s.ofile⟩
  | link {u : User} {target linkname : List Name} {r : Option UError} {t : Incore}
      (h : Exec (Acts exact) s.core (Sys.link u target linkname) r t) : Serves exact s (.link target linkname) ⟨t, s.ofile⟩
  | unlink {u : User} {path : List Name} {r : Option UError} {t : Incore}
      (h : Exec (Acts exact) s.core (Sys.unlink u path) r t) : Serves exact s (.unlink path) ⟨t, s.ofile⟩
  | mkdir {u : User} {ruid : ℤ} {path : List Name} {mode : ℕ} {r : Option UError} {t : Incore}
      (h : Exec (Acts exact) s.core (Sys.mkdir u ruid path mode) r t) : Serves exact s (.mkdir path mode) ⟨t, s.ofile⟩
  | rmdir {u : User} {free opens : Bool} {path : List Name} {r : Option UError} {t : Incore}
      (h : Exec (Acts exact) s.core (Sys.rmdir u free opens path) r t) : Serves exact s (.rmdir path) ⟨t, s.ofile⟩
  | openFile {u : User} {how : Sys.Open} {mode ip : ℕ} {free opens : Bool} {path : List Name} {t : Incore}
      (h : Exec (Acts exact) s.core (Sys.openFile u how mode free opens path) (.ok ip) t) :
      Serves exact s (.openFile how mode path) ⟨t, ⟨ip, how.write⟩ :: s.ofile⟩
  | failed {u : User} {how : Sys.Open} {mode : ℕ} {free opens : Bool} {path : List Name} {e : UError} {t : Incore}
      (h : Exec (Acts exact) s.core (Sys.openFile u how mode free opens path) (.error e) t) :
      Serves exact s (.openFile how mode path) ⟨t, s.ofile⟩
  | close {f : OpenFile} {t : Incore} (hf : f ∈ s.ofile) (h : Exec (Acts exact) s.core (Sys.iput f.ip) () t) :
      Serves exact s (.close f) ⟨t, s.ofile.erase f⟩
  | read {f : OpenFile} {off count : ℕ} {r : List Byte × Option Errno} {t : Incore} (hf : f ∈ s.ofile)
      (h : Exec (Acts exact) s.core (Sys.readi f.ip off count) r t) : Serves exact s (.read f off count) ⟨t, s.ofile⟩
  | write {f : OpenFile} {off : ℕ} {data : List Byte} {r : List Byte × Option Errno} {t : Incore} (hf : f ∈ s.ofile)
      (hwrite : f.write = true) (h : Exec (Acts exact) s.core (Sys.writei f.ip off data) r t) :
      Serves exact s (.write f off data) ⟨t, s.ofile⟩
  | truncate {u : User} {path : List Name} {length : ℤ} {r : Option UError} {t : Incore}
      (h : Exec (Acts exact) s.core (Sys.truncate u path length) r t) :
      Serves exact s (.truncate path length) ⟨t, s.ofile⟩
  | chmod {u : User} {path : List Name} {fmode : ℕ} {r : Option UError} {t : Incore}
      (h : Exec (Acts exact) s.core (Sys.chmod u path fmode) r t) : Serves exact s (.chmod path fmode) ⟨t, s.ofile⟩
  | chown {u : User} {path : List Name} {owner group : Option ℤ} {r : Option UError} {t : Incore}
      (h : Exec (Acts exact) s.core (Sys.chown u path owner group) r t) :
      Serves exact s (.chown path owner group) ⟨t, s.ofile⟩
  | stat {u : User} {path : List Name} {r : Except UError (ℕ × Attr)} {t : Incore}
      (h : Exec (Acts exact) s.core (Sys.stat u path) r t) : Serves exact s (.stat path) ⟨t, s.ofile⟩
  | sync {t : Incore} (h : Exec (Acts exact) s.core Sys.update () t) : Serves exact s .sync ⟨t, s.ofile⟩
  | init (time : ℤ) (stale : Buffer) : Serves exact s .init (.init stale (update s.core.v time).disk)

end Kernel

section Uses

variable {l l' : List OpenFile} {f : OpenFile} {i : ℕ}

/-- How often an inode is open. -/
def usesOf (l : List OpenFile) (i : ℕ) : ℕ := l.countP fun f ↦ f.ip = i

def writersOf (l : List OpenFile) (i : ℕ) : ℕ := l.countP fun f ↦ f.write = true ∧ f.ip = i

theorem writersOf_le (l : List OpenFile) (i : ℕ) : writersOf l i ≤ usesOf l i := by
  refine List.countP_mono_left fun f _ hf ↦ ?_
  exact decide_eq_true (of_decide_eq_true hf).2

theorem usesOf_cons (f : OpenFile) (l : List OpenFile) (i : ℕ) :
    usesOf (f :: l) i = usesOf l i + if f.ip = i then 1 else 0 := by
  rw [usesOf, List.countP_cons]
  simp only [decide_eq_true_eq]
  rfl

theorem writersOf_cons (f : OpenFile) (l : List OpenFile) (i : ℕ) :
    writersOf (f :: l) i = writersOf l i + if f.write = true ∧ f.ip = i then 1 else 0 := by
  rw [writersOf, List.countP_cons]
  simp only [decide_eq_true_eq]
  rfl

theorem usesOf_cons_eq_more (f : OpenFile) (l : List OpenFile) (n : ℕ → ℕ) :
    (fun i ↦ n i + usesOf (f :: l) i) = more (fun i ↦ n i + usesOf l i) f.ip := by
  funext i
  unfold more
  rw [usesOf_cons]
  by_cases hi : i = f.ip
  · rw [hi, if_pos rfl, Function.update_self]
    exact (Nat.add_assoc ..).symm
  · rw [if_neg (Ne.symm hi), Function.update_of_ne hi, Nat.add_zero]

theorem usesOf_of_mem (hf : f ∈ l) : usesOf l = usesOf (f :: l.erase f) :=
  funext fun _ ↦ (List.perm_cons_erase hf).countP_eq _

theorem writersOf_of_mem (hf : f ∈ l) : writersOf l = writersOf (f :: l.erase f) :=
  funext fun _ ↦ (List.perm_cons_erase hf).countP_eq _

/-- An inode that is open for writing has a descriptor. -/
theorem writersOf_pos (hf : f ∈ l) (hwrite : f.write = true) : 0 < writersOf l f.ip := by
  rw [writersOf_of_mem hf, writersOf_cons, if_pos ⟨hwrite, rfl⟩]
  exact Nat.succ_pos _

end Uses

section Steps

variable {exact : Prop} {isize fsize : ℤ} {nobody : List ℤ} {s t : Kernel} {u : Incore} {r : Request}
  {f : OpenFile} {α : Type}

/-- The links are right, and an inode is in use as often as it is open, but for the root directory. -/
structure Kernel.Balanced (exact : Prop) (s : Kernel) : Prop where
  linked : Linked exact (writersOf s.ofile) s.core.files 0
  uses : s.core.iCount = fun i ↦ rooted i + usesOf s.ofile i

/-- What a program ensures of the files holds after every execution of it in the kernel. -/
theorem held_of_exec {p : Sys α} {a : α} {post : α → Files → Prop} {core : Incore}
    (h : ∃ owned, Held isize fsize nobody ⟨core.v, owned⟩) (hp : Ensures (Answers exact) core.files p post)
    (hexec : Exec (Acts exact) core p a u) : (∃ owned, Held isize fsize nobody ⟨u.v, owned⟩) ∧ post a u.files := by
  have hsim (w : Incore) (files : Files) (c : Cmd) (x : c.Ans) (w' : Incore)
      (hsame : (∃ owned, Held isize fsize nobody ⟨w.v, owned⟩) ∧ files = w.files) (hacts : Acts exact w c x w') :
      ∃ files', Answers exact files c x files' ∧ (∃ owned, Held isize fsize nobody ⟨w'.v, owned⟩) ∧ files' = w'.files := by
    obtain ⟨⟨owned, hheld⟩, hfiles⟩ := hsame
    obtain ⟨hheld', hsees⟩ := hheld.does hacts.acts
    exact ⟨w'.files, hfiles ▸ ⟨hsees, hacts.spares⟩, hheld', rfl⟩
  obtain ⟨files, hexec', hheld, hfiles⟩ := hexec.simulate ⟨h, rfl⟩ hsim
  exact ⟨hheld, hfiles ▸ hp a files hexec'⟩

theorem exec_acts {p : Sys α} {a : α} {core : Incore} (h : Exec Does core p a u) : Exec (Acts False) core p a u := by
  have hsim (w w' : Incore) (c : Cmd) (x : c.Ans) (w₂ : Incore) (hsame : w = w') (hdoes : Does w c x w₂) :
      ∃ w₃, Acts False w' c x w₃ ∧ w₂ = w₃ :=
    ⟨w₂, hsame ▸ ⟨hdoes, False.elim⟩, rfl⟩
  obtain ⟨u', hexec, rfl⟩ := h.simulate rfl hsim
  exact hexec

/-- Other files are open. -/
theorem Linked.opens {writers writers' : ℕ → ℕ} {files : Files} {owed : ℕ → ℤ} (h : Linked exact writers files owed)
    (hopen : ∀ i, writers' i ≤ files.iCount i) (hplain : ∀ i o, 0 < writers' i → files.file i = some o → ¬ o.IsDir) :
    Linked exact writers' files owed :=
  ⟨h.small, h.used, hopen, hplain, h.proper, h.le, h.eq⟩

theorem Kernel.Balanced.root (h : s.Balanced exact) : 0 < s.core.files.iCount ROOTINO := by
  change 0 < s.core.iCount ROOTINO
  rw [h.uses]
  exact Nat.add_pos_left (by decide) _

/-- A call that opens and closes nothing. -/
theorem Kernel.Balanced.keep (h : s.Balanced exact)
    (hsettled : Settled exact (writersOf s.ofile) s.core.files.iCount u.files) : Kernel.Balanced exact ⟨u, s.ofile⟩ :=
  ⟨hsettled.1, hsettled.2.trans h.uses⟩

theorem Kernel.Balanced.same (h : s.Balanced exact) (hsame : u.files = s.core.files) :
    Kernel.Balanced exact ⟨u, s.ofile⟩ := by
  refine h.keep ?_
  rw [hsame]
  exact ⟨h.linked, rfl⟩

theorem Kernel.Balanced.opened {ip : ℕ} {how : Sys.Open} (h : s.Balanced exact)
    (hopens : Opens exact (writersOf s.ofile) s.core.files.iCount how (.ok ip) u.files) :
    Kernel.Balanced exact ⟨u, ⟨ip, how.write⟩ :: s.ofile⟩ := by
  obtain ⟨hcount, hplain⟩ := hopens.ok ip rfl
  have huses : u.files.iCount = fun i ↦ rooted i + usesOf (⟨ip, how.write⟩ :: s.ofile) i := by
    rw [hcount, usesOf_cons_eq_more]
    exact congrArg (more · ip) h.uses
  refine ⟨hopens.linked.opens (fun i ↦ ?_) fun i o hi ho ↦ ?_, huses⟩
  · rw [huses]
    exact (writersOf_le _ i).trans (Nat.le_add_left ..)
  · by_cases hnew : how.write = true ∧ ip = i
    · rw [← hnew.2] at ho
      exact hplain hnew.1 o ho
    · rw [writersOf_cons, if_neg hnew, Nat.add_zero] at hi
      exact hopens.linked.plain i o hi ho

theorem Kernel.Balanced.closed (h : s.Balanced exact) (hf : f ∈ s.ofile) :
    Ensures (Answers exact) s.core.files (Sys.iput f.ip) fun _ t ↦
      Settled exact (writersOf (s.ofile.erase f)) (fun i ↦ rooted i + usesOf (s.ofile.erase f) i) t := by
  have huses : s.core.files.iCount = more (fun i ↦ rooted i + usesOf (s.ofile.erase f) i) f.ip := by
    rw [← usesOf_cons_eq_more, ← usesOf_of_mem hf]
    exact h.uses
  have hle (i : ℕ) : writersOf (s.ofile.erase f) i ≤ rooted i + usesOf (s.ofile.erase f) i :=
    (writersOf_le _ i).trans (Nat.le_add_left ..)
  have hfewer (i : ℕ) : writersOf (s.ofile.erase f) i ≤ writersOf s.ofile i := by
    rw [writersOf_of_mem hf, writersOf_cons]
    exact Nat.le_add_right ..
  have hlinked : Linked exact (writersOf (s.ofile.erase f)) s.core.files 0 :=
    h.linked.opens (fun i ↦ (hfewer i).trans (h.linked.opened i)) fun i o hi ↦ h.linked.plain i o (hi.trans_le (hfewer i))
  refine ensures_cmd fun x t hsees ↦ ?_
  cases x
  obtain ⟨hlinked', hcount, -⟩ := hlinked.iput rfl (lt_more huses (hle f.ip)) hsees.sees
  refine ⟨hlinked', ?_⟩
  rw [hcount, huses, less_more]

/-- After `v7fs_init` nothing is open. -/
theorem Linked.init {writers : ℕ → ℕ} {files : Files} (h : Linked exact writers files 0)
    (hroot : 0 < files.iCount ROOTINO) : Linked exact (writersOf []) ⟨files.file, rooted⟩ 0 := by
  refine ⟨h.small, fun i hi ↦ ?_, fun i ↦ Nat.zero_le _, fun i o hi ↦ absurd hi (lt_irrefl 0), h.proper, h.le, h.eq⟩
  dsimp only at hi
  unfold rooted at hi
  split at hi
  · rename_i hiroot
    rw [hiroot]
    exact h.used ROOTINO hroot
  · exact absurd hi (lt_irrefl 0)

/-- Every call keeps the links right. -/
theorem Kernel.Balanced.serves (h : s.Balanced exact) (hheld : ∃ owned, Held isize fsize nobody ⟨s.core.v, owned⟩)
    (hserves : Serves exact s r t) : (∃ owned, Held isize fsize nobody ⟨t.core.v, owned⟩) ∧ t.Balanced exact := by
  have hlinked := h.linked
  have hroot := h.root
  cases hserves with
  | mknod hexec => exact (held_of_exec hheld (mknod_spec hlinked hroot) hexec).imp_right fun ht ↦ h.keep ht.1
  | link hexec => exact (held_of_exec hheld (link_spec hlinked hroot) hexec).imp_right fun ht ↦ h.keep ht.1
  | unlink hexec => exact (held_of_exec hheld (unlink_spec hlinked hroot) hexec).imp_right fun ht ↦ h.keep ht.1
  | mkdir hexec => exact (held_of_exec hheld (mkdir_spec hlinked hroot) hexec).imp_right fun ht ↦ h.keep ht.1
  | rmdir hexec => exact (held_of_exec hheld (rmdir_spec hlinked hroot) hexec).imp_right fun ht ↦ h.keep ht.1
  | openFile hexec => exact (held_of_exec hheld (openFile_spec hlinked hroot) hexec).imp_right h.opened
  | failed hexec =>
    obtain ⟨hheld', hopens⟩ := held_of_exec hheld (openFile_spec hlinked hroot) hexec
    exact ⟨hheld', h.keep ⟨hopens.linked, hopens.error _ rfl⟩⟩
  | close hf hexec =>
    obtain ⟨hheld', hlinked', huses⟩ := held_of_exec hheld (h.closed hf) hexec
    exact ⟨hheld', hlinked', huses⟩
  | read hf hexec => exact (held_of_exec hheld ensures_readi hexec).imp_right fun ht ↦ h.same ht.1
  | write hf hwrite hexec =>
    exact (held_of_exec hheld (hlinked.ensures_writei (writersOf_pos hf hwrite)) hexec).imp_right h.keep
  | truncate hexec => exact (held_of_exec hheld (truncate_spec hlinked hroot) hexec).imp_right h.keep
  | chmod hexec => exact (held_of_exec hheld (chmod_spec hlinked hroot) hexec).imp_right fun ht ↦ h.keep ht.1
  | chown hexec => exact (held_of_exec hheld (chown_spec hlinked hroot) hexec).imp_right h.keep
  | stat hexec => exact (held_of_exec hheld (stat_spec hlinked hroot) hexec).imp_right fun ht ↦ h.same ht.1
  | sync hexec => exact (held_of_exec hheld ensures_update hexec).imp_right h.same
  | init time stale =>
    obtain ⟨owned, hheld⟩ := hheld
    obtain ⟨hheld', hspec⟩ := hheld.act (.iinit time stale)
    have hobject : (iinit stale (update s.core.v time).disk).object = s.core.v.object := by
      generalize s.core.v.object = file at hspec ⊢
      generalize Volume.object _ = file' at hspec ⊢
      cases hspec
      rfl
    refine ⟨hheld', ?_, rfl⟩
    have hinit := hlinked.init hroot
    unfold Kernel.init Incore.files
    rw [hobject]
    exact hinit

end Steps

section NewFiles

variable {exact : Prop} {uid gid : ℤ} {i : ℕ}

def badFile : Object := ⟨32768, 0, 0, 0, 0, fun _ ↦ 0, 0⟩

def rootFile (uid gid : ℤ) : Object := ⟨16895, 2, uid, gid, 32, rootDirectory, 0⟩

theorem newFiles_eq (uid gid : ℤ) : newFiles uid gid =
    Function.update (Function.update (fun _ ↦ none) 1 (some badFile)) ROOTINO (some (rootFile uid gid)) := by
  funext i
  unfold newFiles
  by_cases hroot : i = ROOTINO
  · have hne : ¬ ROOTINO = 1 := by decide
    rw [hroot, Function.update_self, if_neg hne, if_pos rfl]
    rfl
  · rw [Function.update_of_ne hroot, if_neg hroot]
    by_cases hbad : i = 1
    · rw [hbad, Function.update_self, if_pos rfl]
      rfl
    · rw [Function.update_of_ne hbad, if_neg hbad]

theorem isDir_rootFile : (rootFile uid gid).IsDir := by
  have hkind : ((16895 &&& IFMT : ℕ) : ℤ) = IFDIR := by decide
  exact hkind

theorem isDir_badFile : ¬ badFile.IsDir := by decide

theorem slots_rootFile (uid gid : ℤ) : (rootFile uid gid).slots = 2 := by
  change ((32 : ℤ).toNat + 15) / DIRECT = 2
  decide

/-- Both entries of the root directory name it. -/
theorem names_rootFile (uid gid : ℤ) (i : ℕ) : (rootFile uid gid).names i = if i = ROOTINO then 2 else 0 := by
  have hino (k : ℕ) (hk : k < 2) : (rootFile uid gid).ino k = ROOTINO := by
    have hdir : dIno rootDirectory (DIRECT * 0) = ROOTINO ∧ dIno rootDirectory (DIRECT * 1) = ROOTINO := by decide +kernel
    obtain rfl | rfl : k = 0 ∨ k = 1 := by omega
    · exact hdir.1
    · exact hdir.2
  have hcount : Nat.count ((rootFile uid gid).ino · = i) 2 = Nat.count (fun _ ↦ ROOTINO = i) 2 := count_congr hino i
  rw [Object.names, if_pos isDir_rootFile, slots_rootFile, hcount, Nat.count_succ, Nat.count_succ, Nat.count_zero]
  by_cases hi : i = ROOTINO
  · rw [if_pos hi, if_pos hi.symm]
  · rw [if_neg hi, if_neg (Ne.symm hi)]

theorem proper_badFile : badFile.Proper exact :=
  ⟨fun hdir ↦ absurd hdir isDir_badFile, fun _ _ ↦ rfl, fun _ hdir ↦ absurd hdir isDir_badFile⟩

theorem proper_rootFile : (rootFile uid gid).Proper exact := by
  refine ⟨fun _ k l hk hl _ _ hname ↦ ?_, fun k hk ↦ ?_, fun _ _ hnlink ↦ ?_⟩
  · have hne : (rootFile uid gid).name 0 ≠ (rootFile uid gid).name 1 := by
      intro heq
      have hsecond : rootDirectory 3 = rootDirectory 19 := congrFun heq ⟨1, by decide⟩
      exact absurd hsecond (by decide)
    rw [slots_rootFile] at hk hl
    obtain rfl | rfl : k = 0 ∨ k = 1 := by omega
    · obtain rfl | rfl : l = 0 ∨ l = 1 := by omega
      · rfl
      · exact absurd hname hne
    · obtain rfl | rfl : l = 0 ∨ l = 1 := by omega
      · exact absurd hname.symm hne
      · rfl
  · have hlarge : 512 ≤ k := le_trans (by decide) hk
    refine (put_apply_of_apart (.inr (le_trans (by decide) hlarge))).trans ?_
    exact put_apply_of_apart (.inr (le_trans (by decide) hlarge))
  · change (2 : ℤ) ≤ 0 at hnlink
    omega

theorem links_newFiles (uid gid : ℤ) (i : ℕ) : (links (newFiles uid gid) i : ℤ) = nlinkOf (newFiles uid gid i) := by
  have hnone : links (fun _ ↦ none) i = 0 := Finset.sum_eq_zero fun _ _ ↦ rfl
  have hbad : badFile.names i = 0 := if_neg isDir_badFile
  have hfirst := @links_update 1 (by decide) (fun _ ↦ none) (some badFile) i
  have hsecond := @links_update ROOTINO (by decide) (Function.update (fun _ ↦ none) 1 (some badFile))
    (some (rootFile uid gid)) i
  change _ + 0 = _ + badFile.names i at hfirst
  change _ + 0 = _ + (rootFile uid gid).names i at hsecond
  rw [hnone, hbad] at hfirst
  rw [← newFiles_eq, names_rootFile] at hsecond
  have hnlink : nlinkOf (newFiles uid gid i) = if i = ROOTINO then 2 else 0 := by
    unfold newFiles
    by_cases hi : i = ROOTINO
    · rw [hi]
      rfl
    · rw [if_neg hi, if_neg hi]
      split <;> rfl
  rw [hnlink]
  split_ifs at hsecond ⊢ <;> omega

theorem linked_newFiles (exact : Prop) (uid gid : ℤ) : Linked exact (writersOf []) ⟨newFiles uid gid, rooted⟩ 0 := by
  have hsome {i : ℕ} {o : Object} (ho : newFiles uid gid i = some o) :
      i = 1 ∧ o = badFile ∨ i = ROOTINO ∧ o = rootFile uid gid := by
    unfold newFiles at ho
    split at ho
    · rename_i hi
      exact .inl ⟨hi, (Option.some.inj ho).symm⟩
    · split at ho
      · rename_i hi
        exact .inr ⟨hi, (Option.some.inj ho).symm⟩
      · cases ho
  refine ⟨fun i hi ↦ ?_, fun i hi ↦ ?_, fun i ↦ Nat.zero_le _, fun i o hi ↦ absurd hi (lt_irrefl 0), fun d o ho ↦ ?_,
    fun i _ ↦ ?_, fun _ i _ ↦ ?_⟩
  · obtain ⟨o, ho⟩ := Option.ne_none_iff_exists'.mp hi
    obtain ⟨rfl, -⟩ | ⟨rfl, -⟩ := hsome ho <;> decide
  · dsimp only at hi ⊢
    unfold rooted at hi
    split at hi
    · rename_i hroot
      rw [hroot]
      exact Option.some_ne_none (rootFile uid gid)
    · exact absurd hi (lt_irrefl 0)
  · obtain ⟨-, rfl⟩ | ⟨-, rfl⟩ := hsome ho
    · exact proper_badFile
    · exact proper_rootFile
  · exact ((add_zero _).trans (links_newFiles uid gid i)).le
  · exact (add_zero _).trans (links_newFiles uid gid i)

end NewFiles

section FromMkfs

variable {exact : Prop} {fssize isize : ℕ} {flparams : Flparams} {uid gid time root : ℤ} {disk : ℤ → Buffer}
  {v : Volume} {w : Kernel} {rs : List Request} {i d k : ℕ} {o : Object} {f : OpenFile}

theorem balanced_of_run (h : Accepted fssize isize) (hsmall : defaultIsize fssize isize < V7FS_MAX_ITABLE_SIZE)
    (huid : -32768 ≤ uid ∧ uid < 32768) (hgid : -32768 ≤ gid ∧ gid < 32768)
    (hmkfs : mkfs fssize isize flparams uid gid time disk = some (v, root)) (stale : Buffer)
    (hruns : Runs (Serves exact) (.init stale v.disk) rs w) :
    (∃ owned, Held (defaultIsize fssize isize + 2) fssize (lost fssize flparams.fn) ⟨w.core.v, owned⟩) ∧
      w.Balanced exact := by
  obtain ⟨hheld, hobject⟩ := held_of_mkfs h hsmall huid hgid hmkfs stale
  have hstart : (Kernel.init stale v.disk).Balanced exact := by
    refine ⟨?_, rfl⟩
    unfold Kernel.init Incore.files
    rw [hobject]
    exact linked_newFiles exact uid gid
  have hkeeps (s : Kernel) (r : Request) (t : Kernel)
      (hs : (∃ owned, Held (defaultIsize fssize isize + 2) fssize (lost fssize flparams.fn) ⟨s.core.v, owned⟩) ∧
        s.Balanced exact)
      (hserves : Serves exact s r t) :
      (∃ owned, Held (defaultIsize fssize isize + 2) fssize (lost fssize flparams.fn) ⟨t.core.v, owned⟩) ∧ t.Balanced exact :=
    hs.2.serves hs.1 hserves
  exact hruns.keeps ⟨⟨[root], hheld⟩, hstart⟩ hkeeps

/-- The super-user opens the root directory. -/
theorem serves_openRoot (exact : Prop) (stale : Buffer) (disk : ℤ → Buffer) :
    Serves exact (.init stale disk) (.openFile ⟨true, false, false, false, false⟩ 0 [])
      ⟨⟨iinit stale disk, more rooted ROOTINO⟩, [⟨ROOTINO, false⟩]⟩ := by
  obtain ⟨ip, hip, hnumber⟩ : ∃ ip ∈ (iinit stale disk).inode, ip.iNumber = ROOTINO :=
    ⟨_, List.mem_singleton_self _, rfl⟩
  have hget : Acts exact ⟨iinit stale disk, rooted⟩ (.iget ip.iNumber) () ⟨iinit stale disk, more rooted ip.iNumber⟩ :=
    ⟨.again hip, fun _ ↦ trivial⟩
  have hattr : Acts exact ⟨iinit stale disk, more rooted ip.iNumber⟩ (.inode ip.iNumber) ip.attr
      ⟨iinit stale disk, more rooted ip.iNumber⟩ := ⟨.inode hip, fun _ ↦ trivial⟩
  rw [hnumber] at hget hattr
  refine @Serves.openFile exact _ ⟨0, 0⟩ ⟨true, false, false, false, false⟩ 0 ROOTINO true true [] _ ?_
  exact .call hget (.call hattr (.ret _ _))

theorem ensures_of_run (h : Accepted fssize isize) (hsmall : defaultIsize fssize isize < V7FS_MAX_ITABLE_SIZE)
    (huid : -32768 ≤ uid ∧ uid < 32768) (hgid : -32768 ≤ gid ∧ gid < 32768)
    (hmkfs : mkfs fssize isize flparams uid gid time disk = some (v, root)) (stale : Buffer)
    (hruns : Runs (Serves False) (.init stale v.disk) rs w) {α : Type} {p : Sys α} {q : α → Files → Prop}
    (hp : Linked False (writersOf w.ofile) w.core.files 0 → 0 < w.core.files.iCount ROOTINO →
      Ensures (Answers False) w.core.files p fun a t ↦ Settled False (writersOf w.ofile) w.core.files.iCount t ∧ q a t) :
    Ensures Does w.core p fun a t ↦ q a t.files := by
  intro a t hexec
  obtain ⟨hheld, hbalanced⟩ := balanced_of_run h hsmall huid hgid hmkfs stale hruns
  obtain ⟨-, -, hq⟩ := held_of_exec hheld (hp hbalanced.linked hbalanced.root) (exec_acts hexec)
  exact hq

end FromMkfs

end S8000.Filsys
