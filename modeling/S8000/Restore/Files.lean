import S8000.Foundation.Chunks
import S8000.Restore.Names
import S8000.Restore.Replay

namespace S8000.Restore.V7

open Foundation Foundation.Bytes Foundation.Namespace
open Dump (Text)

/-- The bytes of a regular file, with its permissions and set-id bits. -/
def Inode.file? (p : Inode) : Option (List Byte × ℕ) :=
  match p.content with
  | .regular data => some (data, p.mode &&& 0o6777)
  | _ => none

namespace Fs

def file (fs : Fs) (i : ℕ) : Option (List Byte × ℕ) := (fs.inodes.get? i).bind Inode.file?

/-- The directory that a path name ends in, with the last name. -/
def place? (fs : Fs) (path : Text) : Option (ℕ × Text) :=
  match fs.parentOf path with
  | .ok (d, _, n) => some (d, n)
  | .error _ => none

variable {fs fs' : Fs} {d i : ℕ} {n : Text} {path : Text}

theorem file_eq_some {data : List Byte} {mode : ℕ} :
    fs.file i = some (data, mode) ↔
      ∃ p, fs.inodes.get? i = some p ∧ p.content = .regular data ∧ p.mode &&& 0o6777 = mode := by
  rw [file, Option.bind_eq_some_iff]
  refine exists_congr fun p ↦ and_congr_right fun _ ↦ ?_
  rw [Inode.file?]
  cases p.content <;> simp

theorem file_of_slots {ss : List Slot} (h : fs.slots? i = some ss) : fs.file i = none := by
  obtain ⟨p, hp, hss⟩ := Option.bind_eq_some_iff.mp h
  rw [file, hp, Option.bind_some, Inode.file?]
  cases hc : p.content with
  | regular data => simp [hc, Content.slots?] at hss
  | _ => rfl

theorem slots?_of_file {file : List Byte × ℕ} (h : fs.file i = some file) : fs.slots? i = none := by
  cases hss : fs.slots? i with
  | none => rfl
  | some ss =>
    rw [file_of_slots hss] at h
    cases h

theorem place?_eq_some :
    fs.place? path = some (d, n) ↔
      ∃ q ss, components path = q ++ [n] ∧ fs.walk rootIno q = .ok d ∧ fs.slots? d = some ss := by
  rw [place?, parentOf]
  rcases List.eq_nil_or_concat (components path) with hnil | ⟨q, m, hq⟩
  · rw [hnil]
    simp
  rw [List.concat_eq_append] at hq
  rw [hq, List.getLast?_concat, List.dropLast_concat]
  cases hd : fs.walk rootIno q with
  | error e =>
    refine iff_of_false (fun h ↦ by cases h) ?_
    rintro ⟨q', ss, hq', hd', -⟩
    obtain ⟨rfl, -⟩ := List.append_inj' hq' rfl
    rw [hd] at hd'
    cases hd'
  | ok k =>
    cases hss : fs.slots? k with
    | none =>
      refine iff_of_false (by simp [bind, Except.bind, hss]) ?_
      rintro ⟨q', ss, hq', hd', hss'⟩
      obtain ⟨rfl, -⟩ := List.append_inj' hq' rfl
      rw [hd] at hd'
      obtain rfl := Except.ok.inj hd'
      rw [hss] at hss'
      cases hss'
    | some ss =>
      simp only [bind, Except.bind, hss, Option.some.injEq, Prod.mk.injEq]
      constructor
      · rintro ⟨rfl, rfl⟩
        exact ⟨q, ss, rfl, hd, hss⟩
      · rintro ⟨q', ss', hq', hd', -⟩
        obtain ⟨rfl, hm⟩ := List.append_inj' hq' rfl
        rw [hd] at hd'
        exact ⟨Except.ok.inj hd', List.singleton_inj.mp hm⟩

theorem nameiCreate_of_place (h : fs.place? path = some (d, n)) :
    fs.nameiCreate path = .ok (match fs.child d n with
      | some k => .inl k
      | none => .inr (d, n)) := by
  obtain ⟨q, ss, hq, hd, hss⟩ := place?_eq_some.mp h
  unfold nameiCreate parentOf
  rw [hq, List.getLast?_concat, List.dropLast_concat, child_of_slots hss]
  simp only [hd, bind, Except.bind, pure, Except.pure, hss]
  cases lookup n ss <;> rfl

theorem nameiCreate_of_no_place (h : fs.place? path = none) : ∃ e, fs.nameiCreate path = .error e := by
  rw [place?] at h
  rw [nameiCreate]
  cases hp : fs.parentOf path with
  | error e => exact ⟨e, rfl⟩
  | ok r =>
    rw [hp] at h
    cases h

theorem namei_of_place (h : fs.place? path = some (d, n)) (hi : fs.child d n = some i) :
    fs.namei path = .ok i := by
  obtain ⟨q, ss, hq, hd, hss⟩ := place?_eq_some.mp h
  rw [namei, hq, walk_append, hd, Except.bind, walk_cons_of_child hi]
  rfl

@[simp] theorem file_refresh (fs : Fs) (i : ℕ) : fs.refresh.file i = fs.file i := rfl

@[simp] theorem child_refresh (fs : Fs) (i : ℕ) (n : Text) : fs.refresh.child i n = fs.child i n := rfl

end Fs

section Wider

variable {fs fs' fs'' : Fs} {d i : ℕ} {n : Text} {path : Text}

/-- What every state of an image meets: names lead to inodes, `.` of the root to the root, and no
file is the disk itself. -/
structure Fs.Ready (fs : Fs) : Prop where
  sound : fs.Sound
  root : fs.child rootIno ['.'] = some rootIno
  disk : NoDisk fs

/-- Names and directories are only added. -/
structure Wider (fs fs' : Fs) : Prop where
  child {d : ℕ} {n : Text} {i : ℕ} : fs.child d n = some i → fs'.child d n = some i
  dirs {d : ℕ} {ss : List Slot} : fs.slots? d = some ss → ∃ ss', fs'.slots? d = some ss'
  ready : fs.Ready → fs'.Ready

theorem Wider.namei (h : Wider fs fs') (hi : fs.namei path = .ok i) : fs'.namei path = .ok i :=
  Fs.walk_eq_ok.mpr (resolve_mono (fun _ _ _ ↦ h.child) (Fs.walk_eq_ok.mp hi))

theorem Wider.place (h : Wider fs fs') (he : fs.place? path = some (d, n)) : fs'.place? path = some (d, n) := by
  obtain ⟨q, ss, hq, hd, hss⟩ := Fs.place?_eq_some.mp he
  obtain ⟨ss', hss'⟩ := h.dirs hss
  have hwalk := resolve_mono (fun _ _ _ ↦ h.child) (Fs.walk_eq_ok.mp hd)
  exact Fs.place?_eq_some.mpr ⟨q, ss', hq, Fs.walk_eq_ok.mpr hwalk, hss'⟩

/-- The regular files and their names are as they were. -/
structure Frame (fs fs' : Fs) : Prop extends Wider fs fs' where
  file {i : ℕ} {file : List Byte × ℕ} : fs.file i = some file → fs'.file i = some file
  back {d : ℕ} {n : Text} {i : ℕ} {file : List Byte × ℕ} : fs'.child d n = some i → fs'.file i = some file →
    fs.child d n = some i ∧ fs.file i = some file

theorem Frame.refl (fs : Fs) : Frame fs fs := ⟨⟨id, fun h ↦ ⟨_, h⟩, id⟩, id, fun h h' ↦ ⟨h, h'⟩⟩

theorem Frame.trans (h : Frame fs fs') (h' : Frame fs' fs'') : Frame fs fs'' where
  child hc := h'.child (h.child hc)
  dirs hs := let ⟨_, hs'⟩ := h.dirs hs; h'.dirs hs'
  ready hr := h'.ready (h.ready hr)
  file hf := h'.file (h.file hf)
  back hc hf := let ⟨hc', hf'⟩ := h'.back hc hf; h.back hc' hf'

/-- Only what a name cannot reach differs. -/
structure Same (fs fs' : Fs) : Prop where
  slots (i : ℕ) : fs'.slots? i = fs.slots? i
  file (i : ℕ) : fs'.file i = fs.file i
  ready : fs.Ready → fs'.Ready

theorem Same.place (h : Same fs fs') (path : Text) : fs'.place? path = fs.place? path := by
  rw [Fs.place?, Fs.parentOf, Fs.place?, Fs.parentOf]
  simp only [Fs.walk_congr h.slots, h.slots]

theorem Same.child (h : Same fs fs') (i : ℕ) (n : Text) : fs'.child i n = fs.child i n := by
  rw [Fs.child, h.slots, Fs.child]

theorem Same.frame (h : Same fs fs') : Frame fs fs' where
  child hc := (h.child _ _).trans hc
  dirs hs := ⟨_, (h.slots _).trans hs⟩
  ready := h.ready
  file hf := (h.file _).trans hf
  back hc hf := ⟨(h.child _ _).symm.trans hc, (h.file _).symm.trans hf⟩

theorem Same.refl (fs : Fs) : Same fs fs := ⟨fun _ ↦ rfl, fun _ ↦ rfl, id⟩

theorem Same.refresh (fs : Fs) : Same fs fs.refresh where
  slots _ := rfl
  file _ := rfl
  ready h := ⟨h.sound, h.root, h.disk⟩

theorem Same.trans (h : Same fs fs') (h' : Same fs' fs'') : Same fs fs'' where
  slots i := (h'.slots i).trans (h.slots i)
  file i := (h'.file i).trans (h.file i)
  ready hr := h'.ready (h.ready hr)

theorem Same.modify (fs : Fs) (i : ℕ) {f : Inode → Inode} (hc : ∀ p, (f p).content = p.content)
    (hm : ∀ p, (f p).mode = p.mode) : Same fs (fs.modify i f) where
  slots j := Fs.slots?_modify hc fs i j
  file j := by
    rw [Fs.file, Fs.get?_modify]
    split
    · rw [Fs.file]
      cases fs.inodes.get? j with
      | none => rfl
      | some p => simp only [Option.map_some, Option.bind_some, Inode.file?, hc, hm]
    · rfl
  ready h := by
    refine ⟨h.sound.modify hc, (Fs.child_modify hc fs i rootIno _).trans h.root, fun j p hp ↦ ?_⟩
    rw [Fs.get?_modify] at hp
    split at hp
    · obtain ⟨p', hp', rfl⟩ := Option.map_eq_some_iff.mp hp
      rw [hc]
      exact h.disk j p' hp'
    · exact h.disk j p hp

theorem v7fsChown_same (host : Host) (fs : Fs) (path : Text) (owner group : BitVec 32) :
    Same fs (v7fsChown host fs path owner group).1 := by
  rw [v7fsChown]
  cases h : fs.namei path with
  | error e =>
    rw [onInode_of_error h]
    exact Same.refresh fs
  | ok i =>
    rw [onInode_of_ok h]
    refine (Same.refresh fs).trans (Same.modify _ i (fun p ↦ ?_) fun p ↦ ?_)
    · split <;> rfl
    · split <;> rfl

end Wider

section Mkdir

variable {host : Host} {base fs : Fs} {d i : ℕ} {n path : Text} {q : List Text} {ss : List Slot}

theorem dirname_rdropWhile (h : path.rdropWhile (· = '/') ≠ []) :
    dirname (path.rdropWhile (· = '/')) = dirname path := by
  have hhead : (path.rdropWhile (· = '/')).head? = path.head? := by
    obtain ⟨rest, hrest⟩ := List.rdropWhile_prefix (p := (· = '/')) (l := path)
    rw [← hrest, List.head?_append_of_ne_nil _ h]
    congr 1
    rw [hrest]
  rw [dirname, List.rdropWhile_idempotent, hhead, dirname]

/-- The parent of a path, or the current directory for a single name. -/
theorem components_dirname_or (h : components path = q ++ [n]) :
    components (dirname path) = q ∨ q = [] ∧ dirname path = ['.'] := by
  have hbody : path.rdropWhile (· = '/') ≠ [] := by
    intro hnil
    rw [← components_rdropWhile, hnil, components_nil] at h
    cases q <;> cases h
  rw [← dirname_rdropWhile hbody]
  rw [← components_rdropWhile] at h
  have hlast := List.rdropWhile_last_not (· = '/') path hbody
  generalize path.rdropWhile (· = '/') = body at h hbody hlast
  by_cases hslash : '/' ∈ body
  · left
    -- what follows the last slash is the last component
    obtain ⟨b, a, hba, hb⟩ := List.eq_append_cons_of_mem (List.mem_reverse.mpr hslash)
    rw [List.reverse_eq_iff, List.reverse_append, List.reverse_cons, List.append_assoc,
      List.singleton_append] at hba
    subst hba
    have hb' : '/' ∉ b.reverse := fun hmem ↦ hb (List.mem_reverse.mp hmem)
    have hne : b.reverse ≠ [] := by
      intro hnil
      simp [hnil] at hlast
    rw [components_append, components_name hne hb'] at h
    rw [components_dirname hne hb']
    exact (List.append_inj' h rfl).1
  · right
    rw [components_name hbody hslash] at h
    obtain ⟨hq, -⟩ := List.append_inj' ((List.nil_append _).trans h) rfl
    refine ⟨hq.symm, ?_⟩
    have hself : body.rdropWhile (· = '/') = body :=
      List.rdropWhile_eq_self_iff.mpr fun _ ↦ hlast
    have hnone : body.rdropWhile (· ≠ '/') = [] := by
      rw [List.rdropWhile_eq_nil_iff]
      intro c hc
      have hcs : c ≠ '/' := fun hcs ↦ hslash (hcs ▸ hc)
      simpa using hcs
    have hhead : body.head? ≠ some '/' := fun hhead ↦ hslash (List.mem_of_mem_head? hhead)
    rw [dirname, hself, hnone, List.rdropWhile_nil]
    simp only [ne_eq, not_true_eq_false, ↓reduceIte, hhead]

/-- Making a directory is no matter for the files. -/
theorem Making.toFrame (h : Making base d n i ss fs) (hready : base.Ready → fs.Sound)
    (hsi : fs.slots? i = some [some (['.'], i), some (['.', '.'], d)]) : Frame base fs where
  child := h.mono
  dirs {j sj} hs := by
    by_cases hj : j = d
    · exact ⟨_, hj ▸ h.entered⟩
    · refine ⟨sj, ?_⟩
      rw [Fs.slots?, h.frame hj (Fs.mem_of_slots hs)]
      exact hs
  ready hr := ⟨hready hr, h.mono hr.root, hr.disk.grows (h.ext_of_slots hsi).toGrows⟩
  file {j file} hf := by
    obtain ⟨p, hp, -⟩ := Option.bind_eq_some_iff.mp hf
    have hj : j ≠ d := by
      rintro rfl
      rw [Fs.file_of_slots h.parent] at hf
      cases hf
    rw [Fs.file, h.frame hj (Dict.mem_iff_get?_eq_some.mpr ⟨p, hp⟩)]
    exact hf
  back {a m j file} hc hf := by
    have hji : j ≠ i := by
      rintro rfl
      rw [Fs.file_of_slots hsi] at hf
      cases hf
    have hjd : j ≠ d := by
      rintro rfl
      rw [Fs.file_of_slots h.entered] at hf
      cases hf
    refine ⟨?_, by rw [Fs.file, ← h.get?_of_ne hjd hji]; exact hf⟩
    by_cases hai : a = i
    · subst hai
      rw [Fs.child_of_slots hsi, lookup, lookup, lookup] at hc
      split at hc
      · exact absurd (Option.some.inj hc).symm hji
      · split at hc
        · exact absurd (Option.some.inj hc).symm hjd
        · cases hc
    · by_cases had : a = d
      · subst had
        by_cases hm : m = n
        · subst hm
          rw [h.child] at hc
          exact absurd (Option.some.inj hc).symm hji
        · rwa [h.child_of_ne hm] at hc
      · rwa [h.child_frame had hai] at hc

theorem v7fsMkdir_frame (hroomy : Roomy host) (hready : fs.Ready) (path : Text) (mode : ℕ) :
    Frame fs (v7fsMkdir host fs path mode).1 := by
  unfold v7fsMkdir
  rcases List.eq_nil_or_concat (components path) with hnil | ⟨q, n, hq⟩
  · have herror : fs.refresh.nameiCreate path = .error .enoent := by
      rw [Fs.nameiCreate, Fs.parentOf, hnil]
      rfl
    simp only [herror]
    exact (Same.refresh fs).frame
  rw [List.concat_eq_append] at hq
  rcases Fs.nameiCreate_cases fs.refresh hq with ⟨e, he, -⟩ | ⟨k, hk, -⟩ | ⟨d, ss, hd, hwalk, hss, hn⟩
  · simp only [he]
    exact (Same.refresh fs).frame
  · simp only [hk]
    exact (Same.refresh fs).frame
  · simp only [hd]
    rcases maknode_cases host n (.directory []) 0o700 hss hn (fun _ ↦ rfl) with
      ⟨i, fs', hmk, hmaking, ⟨p, hp, hpc, -⟩, hsound⟩ | ⟨hfull, -⟩
    · have hsi : fs'.slots? i = some [] := by
        rw [Fs.slots?, hp, Option.bind_some, hpc]
        rfl
      have hup : ∀ fs'', Making fs.refresh d n i ss fs'' → fs''.namei (dirname path) = .ok d := by
        intro fs'' h
        rcases components_dirname_or hq with hdir | ⟨rfl, hdot⟩
        · rw [Fs.namei, hdir]
          exact (h.walk hwalk).1
        · obtain rfl : rootIno = d := Except.ok.inj hwalk
          have hroot : fs''.child rootIno ['.'] = some rootIno := h.mono hready.root
          rw [Fs.namei, hdot]
          exact (Fs.walk_cons_of_child hroot).trans rfl
      simp only [hmk]
      obtain ⟨hmade, hfinish⟩ := hmaking.finish host hsi hwalk hq (by rw [components_append, hq]; rfl)
        (by rw [components_append, hq]; rfl) hup mode
      generalize finishMkdir host fs' path mode = r at hmade hfinish ⊢
      rcases hfinish with ⟨hok, hslots, hsound'⟩ | ⟨hfull, -⟩
      · simp only [hok]
        exact (Same.refresh fs).frame.trans (hmade.toFrame (fun hr ↦ hsound' (hsound hr.sound)) hslots)
      · exact absurd hroomy hfull
    · exact absurd hroomy hfull

end Mkdir

section Placed

variable {host : Host} {fs fs' fs'' : Fs} {d t : ℕ} {n path old : Text} {g : List Byte × ℕ}

/-- The name `n` of the directory `d` leads to the regular file `t`, which is `g` now. -/
structure Placed (fs fs' : Fs) (d : ℕ) (n : Text) (t : ℕ) (g : List Byte × ℕ) : Prop where
  child (a : ℕ) (m : Text) : fs'.child a m = if a = d ∧ m = n then some t else fs.child a m
  file {j : ℕ} : j ≠ t → fs'.file j = fs.file j
  self : fs'.file t = some g
  before {k : ℕ} : fs.child d n = some k → k = t
  dirs {a : ℕ} {ss : List Slot} : fs.slots? a = some ss → ∃ ss', fs'.slots? a = some ss'
  ready : fs.Ready → fs'.Ready

theorem Placed.wider (h : Placed fs fs' d n t g) : Wider fs fs' where
  child {a m k} hc := by
    rw [h.child]
    split
    · rename_i ham
      obtain ⟨rfl, rfl⟩ := ham
      rw [h.before hc]
    · exact hc
  dirs := h.dirs
  ready := h.ready

theorem Placed.same (h : Placed fs fs' d n t g) (h' : Same fs' fs'') : Placed fs fs'' d n t g where
  child a m := (h'.child a m).trans (h.child a m)
  file hj := (h'.file _).trans (h.file hj)
  self := (h'.file t).trans h.self
  before := h.before
  dirs hs := let ⟨_, hs'⟩ := h.dirs hs; ⟨_, (h'.slots _).trans hs'⟩
  ready hr := h'.ready (h.ready hr)

theorem Same.placed (h : Same fs fs') (h' : Placed fs' fs'' d n t g) : Placed fs fs'' d n t g where
  child a m := by rw [h'.child, h.child]
  file hj := (h'.file hj).trans (h.file _)
  self := h'.self
  before hk := h'.before ((h.child d n).trans hk)
  dirs hs := h'.dirs ((h.slots _).trans hs)
  ready hr := h'.ready (h.ready hr)

/-- The file has the name already. -/
theorem Placed.refl (hn : fs.child d n = some t) (hg : fs.file t = some g) : Placed fs fs d n t g where
  child a m := by
    split
    · rename_i ham
      rw [ham.1, ham.2, hn]
    · rfl
  file _ := rfl
  self := hg
  before hk := Option.some.inj (hk.symm.trans hn)
  dirs hs := ⟨_, hs⟩
  ready := id

/-- A new name for the file. -/
theorem Placed.enter {ss : List Slot} (hss : fs.slots? d = some ss) (hn : lookup n ss = none)
    (hg : fs.file t = some g) (time : Time) : Placed fs (fs.modify d fun p ↦
      { p with content := .directory (enterSlot n t ss), mtime := time }) d n t g := by
  have htd : t ≠ d := by
    rintro rfl
    rw [Fs.file_of_slots hss] at hg
    cases hg
  have hfile : ∀ j, j ≠ d → (fs.modify d fun p ↦
      { p with content := .directory (enterSlot n t ss), mtime := time }).file j = fs.file j := by
    intro j hj
    rw [Fs.file, Fs.get?_modify, if_neg (Ne.symm hj), Fs.file]
  have hslots : ∀ j, (fs.modify d fun p ↦
      { p with content := .directory (enterSlot n t ss), mtime := time }).slots? j =
        if d = j then some (enterSlot n t ss) else fs.slots? j := Fs.slots?_setSlots hss
  refine ⟨fun a m ↦ ?_, fun {j} hj ↦ ?_, (hfile t htd).trans hg, fun hk ↦ ?_, fun {a sa} hs ↦ ?_, fun hr ↦ ?_⟩
  · rw [Fs.child, hslots]
    by_cases ha : d = a
    · subst ha
      rw [if_pos rfl, Option.bind_some, lookup_enterSlot hn, Fs.child_of_slots hss]
      simp only [true_and]
    · rw [if_neg ha, if_neg fun h ↦ ha h.1.symm]
      rfl
  · by_cases hjd : j = d
    · subst hjd
      rw [Fs.file_of_slots ((hslots j).trans (if_pos rfl)), Fs.file_of_slots hss]
    · exact hfile j hjd
  · rw [Fs.child_of_slots hss, hn] at hk
    cases hk
  · rw [hslots]
    split
    · exact ⟨_, rfl⟩
    · exact ⟨_, hs⟩
  · have hgrows := (Grows.refl fs).enter hss hn time (i := t)
    obtain ⟨p, hp, -⟩ := Option.bind_eq_some_iff.mp hg
    exact ⟨hr.sound.enter hss hn (Dict.mem_iff_get?_eq_some.mpr ⟨p, hp⟩), hgrows.child hr.root,
      hr.disk.grows hgrows⟩

/-- Other bytes for the file, under all its names. -/
theorem Placed.setData {bytes : List Byte} {mode : ℕ} (h : Placed fs fs' d n t (bytes, mode)) (data : List Byte)
    (time : Time) : Placed fs (fs'.modify t fun p ↦
      { p with content := .regular data, mtime := time }) d n t (data, mode) := by
  obtain ⟨p, hp, hc, hm⟩ := Fs.file_eq_some.mp h.self
  obtain ⟨hext, -, hslots⟩ := (Extends.refl fs').setData ⟨p, bytes, hp, hc⟩ data time
  refine ⟨fun a m ↦ ?_, fun {j} hj ↦ ?_, ?_, h.before, fun hs ↦ ?_, fun hr ↦ ?_⟩
  · rw [Fs.child, hslots]
    exact h.child a m
  · rw [Fs.file, Fs.get?_modify, if_neg (Ne.symm hj)]
    exact h.file hj
  · rw [Fs.file_eq_some, Fs.get?_modify, if_pos rfl, hp]
    exact ⟨_, rfl, rfl, hm⟩
  · obtain ⟨ss', hss'⟩ := h.dirs hs
    exact ⟨ss', (hslots _).trans hss'⟩
  · have hr' := h.ready hr
    refine ⟨fun a m k hc ↦ ?_, hext.child hr'.root, hr'.disk.grows hext.toGrows⟩
    rw [Fs.child, hslots] at hc
    exact Fs.mem_modify.mpr (hr'.sound a m k hc)

theorem Making.placed {base fs : Fs} {i : ℕ} {ss : List Slot} {p : Inode} {data : List Byte}
    (h : Making base d n i ss fs) (hp : fs.inodes.get? i = some p) (hc : p.content = .regular data)
    (hsound : base.Sound → fs.Sound) : Placed base fs d n i (data, p.mode &&& 0o6777) where
  child a m := by
    split
    · rename_i ham
      rw [ham.1, ham.2, h.child]
    · rename_i ham
      by_cases ha : a = d
      · subst ha
        exact h.child_of_ne fun hm ↦ ham ⟨rfl, hm⟩
      · by_cases hai : a = i
        · subst hai
          have hnew : base.child a m = none := by
            cases hb : base.child a m with
            | none => rfl
            | some k => exact absurd (Fs.mem_of_child hb) h.fresh
          rw [hnew, Fs.child, Fs.slots?, hp, Option.bind_some, hc]
          rfl
        · exact h.child_frame ha hai
  file {j} hj := by
    by_cases hjd : j = d
    · subst hjd
      rw [Fs.file_of_slots h.entered, Fs.file_of_slots h.parent]
    · rw [Fs.file, h.get?_of_ne hjd hj, Fs.file]
  self := Fs.file_eq_some.mpr ⟨p, hp, hc, rfl⟩
  before hk := by
    rw [Fs.child_of_slots h.parent, h.missing] at hk
    cases hk
  dirs {a sa} hs := by
    by_cases ha : a = d
    · exact ⟨_, ha ▸ h.entered⟩
    · refine ⟨sa, ?_⟩
      rw [Fs.slots?, h.frame ha (Fs.mem_of_slots hs)]
      exact hs
  ready hr := by
    refine ⟨hsound hr.sound, h.mono hr.root, hr.disk.grows (h.ext fun q hq ↦ ?_).toGrows⟩
    obtain rfl := Option.some.inj (hp.symm.trans hq)
    rw [hc]
    rfl

/-- `v7fs_link` gives a new name to a file. -/
theorem v7fsLink_placed (hroomy : Roomy host) (hold : fs.namei old = .ok t) (hg : fs.file t = some g)
    (hp : fs.place? path = some (d, n)) (hn : fs.child d n = none) :
    (v7fsLink host fs old path).2 = none ∧ Placed fs (v7fsLink host fs old path).1 d n t g := by
  have hnamei : fs.refresh.namei old = .ok t := (Fs.namei_refresh fs old).trans hold
  have hcreate := Fs.nameiCreate_of_place (((Same.refresh fs).place path).trans hp)
  rw [Fs.child_refresh, hn] at hcreate
  obtain ⟨q, ss, -, -, hss⟩ := Fs.place?_eq_some.mp hp
  have hss' : fs.refresh.slots? d = some ss := hss
  rcases wdir_cases host n t hss' with hw | ⟨hfull, -⟩
  · rw [v7fsLink_of_room hnamei hcreate hw]
    rw [Fs.child_of_slots hss] at hn
    have hplaced := (Same.refresh fs).placed (Placed.enter hss' hn hg (now host fs.refresh))
    exact ⟨rfl, hplaced.same (Same.modify _ t (fun _ ↦ rfl) fun _ ↦ rfl)⟩
  · exact absurd hroomy hfull

/-- A name that is there already, or that has no directory, is not linked. -/
theorem v7fsLink_refused (host : Host) (old : Text) (h : ∀ d n, fs.place? path = some (d, n) → fs.child d n ≠ none) :
    (v7fsLink host fs old path).2 ≠ none ∧ Same fs (v7fsLink host fs old path).1 := by
  rw [v7fsLink]
  cases fs.refresh.namei old with
  | error e => exact ⟨Option.some_ne_none _, Same.refresh fs⟩
  | ok t =>
    cases hp : fs.place? path with
    | none =>
      obtain ⟨e, he⟩ := Fs.nameiCreate_of_no_place (((Same.refresh fs).place path).trans hp)
      simp only [he]
      exact ⟨Option.some_ne_none _, Same.refresh fs⟩
    | some place =>
      obtain ⟨d, n⟩ := place
      have hcreate := Fs.nameiCreate_of_place (((Same.refresh fs).place path).trans hp)
      obtain ⟨k, hk⟩ := Option.ne_none_iff_exists'.mp (h d n hp)
      rw [Fs.child_refresh, hk] at hcreate
      simp only [hcreate]
      exact ⟨Option.some_ne_none _, Same.refresh fs⟩

/-- `v7fs_open` for writing makes the file. -/
theorem v7fsOpen_new (hroomy : Roomy host) (hp : fs.place? path = some (d, n)) (hn : fs.child d n = none)
    (mode : ℕ) : ∃ i fs', v7fsOpen host fs path mode = (fs', .ok i) ∧ i ∉ fs.inodes ∧
      Placed fs fs' d n i ([], mode &&& 0o6777) := by
  have hcreate := Fs.nameiCreate_of_place (((Same.refresh fs).place path).trans hp)
  rw [Fs.child_refresh, hn] at hcreate
  obtain ⟨q, ss, -, -, hss⟩ := Fs.place?_eq_some.mp hp
  have hss' : fs.refresh.slots? d = some ss := hss
  rw [Fs.child_of_slots hss] at hn
  rw [v7fsOpen]
  simp only [hcreate]
  rcases maknode_cases host n (.regular []) (mode &&& 0o6777) hss' hn (fun _ ↦ rfl) with
    ⟨i, fs', hmk, hmaking, ⟨p, hpi, hpc, hpm, -⟩, hsound⟩ | ⟨hfull, -⟩
  · refine ⟨i, fs', hmk, hmaking.fresh, (Same.refresh fs).placed ?_⟩
    have hplaced := hmaking.placed hpi hpc hsound
    rwa [hpm, Nat.and_assoc, Nat.and_self] at hplaced
  · exact absurd hroomy hfull

/-- `v7fs_open` for writing empties a file that is there. -/
theorem v7fsOpen_there (host : Host) {bytes : List Byte} {mode' : ℕ} (hp : fs.place? path = some (d, n))
    (hn : fs.child d n = some t) (hg : fs.file t = some (bytes, mode')) (mode : ℕ) :
    ∃ fs', v7fsOpen host fs path mode = (fs', .ok t) ∧ Placed fs fs' d n t ([], mode') := by
  have hcreate := Fs.nameiCreate_of_place (((Same.refresh fs).place path).trans hp)
  rw [Fs.child_refresh, hn] at hcreate
  obtain ⟨p, hpt, hpc, -⟩ := Fs.file_eq_some.mp hg
  rw [v7fsOpen]
  simp only [hcreate, Fs.inodes_refresh, hpt, Option.map_some, hpc]
  have hn' : fs.refresh.child d n = some t := hn
  have hg' : fs.refresh.file t = some (bytes, mode') := hg
  exact ⟨_, rfl, (Same.refresh fs).placed ((Placed.refl hn' hg').setData [] _)⟩

/-- Where there is no file and none can be made, nothing is opened. -/
theorem v7fsOpen_refused (host : Host) (hready : fs.Ready)
    (h : ∀ d n, fs.place? path = some (d, n) → ∃ k, fs.child d n = some k ∧ fs.file k = none) (mode : ℕ) :
    ∃ e fs', v7fsOpen host fs path mode = (fs', .error e) ∧ Same fs fs' := by
  rw [v7fsOpen]
  cases hp : fs.place? path with
  | none =>
    obtain ⟨e, he⟩ := Fs.nameiCreate_of_no_place (((Same.refresh fs).place path).trans hp)
    simp only [he]
    exact ⟨_, _, rfl, Same.refresh fs⟩
  | some place =>
    obtain ⟨d, n⟩ := place
    have hcreate := Fs.nameiCreate_of_place (((Same.refresh fs).place path).trans hp)
    obtain ⟨k, hk, hfile⟩ := h d n hp
    rw [Fs.child_refresh, hk] at hcreate
    simp only [hcreate, Fs.inodes_refresh]
    cases hpk : fs.inodes.get? k with
    | none => exact ⟨_, _, rfl, Same.refresh fs⟩
    | some p =>
      cases hc : p.content with
      | directory ss =>
        simp only [Option.map_some, hc]
        exact ⟨_, _, rfl, Same.refresh fs⟩
      | regular data =>
        rw [Fs.file, hpk, Option.bind_some, Inode.file?, hc] at hfile
        cases hfile
      | special b r =>
        have hno : isDisk (.special b r) = false := hc ▸ hready.disk k p hpk
        simp only [Option.map_some, hc, hno]
        exact ⟨_, _, rfl, Same.refresh fs⟩

/-- Whatever is written to a file finds room. -/
def Spacious (host : Host) : Prop := ∀ fs i data, data.length ≤ host.dataRoom fs i data

theorem Placed.write (hspace : Spacious host) {bytes : List Byte} {mode : ℕ}
    (h : Placed fs fs' d n t (bytes, mode)) (data : List Byte) :
    Placed fs (v7fsWrite host fs' t data).1 d n t (bytes ++ data, mode) := by
  obtain ⟨p, hp, hc, -⟩ := Fs.file_eq_some.mp h.self
  rw [v7fsWrite]
  simp only [Fs.inodes_refresh, hp, Option.map_some, hc]
  rw [List.take_of_length_le (hspace _ _ _)]
  exact (h.same (Same.refresh fs')).setData _ _

theorem Placed.writes (hspace : Spacious host) {bytes : List Byte} {mode : ℕ}
    (h : Placed fs fs' d n t (bytes, mode)) (ps : List (List Byte)) :
    Placed fs (ps.foldl (fun fs piece ↦ (v7fsWrite host fs t piece).1) fs') d n t (bytes ++ ps.flatten, mode) := by
  induction ps generalizing fs' bytes with
  | nil => simpa using h
  | cons piece ps ih =>
    rw [List.foldl_cons, List.flatten_cons, ← List.append_assoc]
    exact ih (h.write hspace piece)

theorem flatten_pieces {m : ℕ} (hm : 0 < m) (data : List Byte) : (pieces m data).flatten = data := by
  rw [pieces, Chunks.flatten_take_drop]
  apply List.take_of_length_le
  have hdiv := Nat.lt_div_mul_add (a := data.length + m - 1) hm
  omega

end Placed

end S8000.Restore.V7
