import S8000.Restore.Replay

namespace S8000.Restore.V7

open Foundation Foundation.Bytes Foundation.Namespace
open Dump (Text isDot)

section Slots

variable {n m : Text} {i : ℕ} {ss : List Slot}

theorem lookup_enterSlot (h : lookup n ss = none) :
    lookup m (enterSlot n i ss) = if m = n then some i else lookup m ss := by
  induction ss with
  | nil =>
    rw [enterSlot, lookup]
    exact if_congr eq_comm rfl rfl
  | cons s ss ih =>
    cases s with
    | none =>
      rw [enterSlot, lookup, lookup]
      exact if_congr eq_comm rfl rfl
    | some e =>
      obtain ⟨l, k⟩ := e
      rw [lookup] at h
      split at h
      · cases h
      · rename_i hl
        rw [enterSlot, lookup, lookup, ih h]
        by_cases hm : l = m
        · rw [if_pos hm, if_pos hm, if_neg fun hmn ↦ hl (hm.trans hmn)]
        · rw [if_neg hm, if_neg hm]

/-- Clearing the slot of a new entry brings the old names back. -/
theorem lookup_clearSlot_enterSlot (h : lookup n ss = none) :
    lookup m (clearSlot n (enterSlot n i ss)) = lookup m ss := by
  induction ss with
  | nil => simp [enterSlot, clearSlot, lookup]
  | cons s ss ih =>
    cases s with
    | none => simp [enterSlot, clearSlot, lookup]
    | some e =>
      obtain ⟨l, k⟩ := e
      rw [lookup] at h
      split at h
      · cases h
      · rename_i hl
        rw [enterSlot, clearSlot, if_neg hl, lookup, lookup, ih h]

end Slots

namespace Fs

variable {fs fs' : Fs} {i j k d : ℕ} {n m : Text} {p : List Text}

theorem child_eq_some : fs.child i n = some k ↔ ∃ ss, fs.slots? i = some ss ∧ lookup n ss = some k :=
  Option.bind_eq_some_iff

theorem child_of_slots {ss : List Slot} (h : fs.slots? i = some ss) : fs.child i n = lookup n ss := by
  rw [child, h, Option.bind_some]

theorem mem_of_slots {ss : List Slot} (h : fs.slots? i = some ss) : i ∈ fs.inodes := by
  obtain ⟨q, hq, -⟩ := Option.bind_eq_some_iff.mp h
  exact Dict.mem_iff_get?_eq_some.mpr ⟨q, hq⟩

theorem mem_of_child (h : fs.child i n = some k) : i ∈ fs.inodes := by
  obtain ⟨ss, hss, -⟩ := child_eq_some.mp h
  exact mem_of_slots hss

theorem mem_modify {f : Inode → Inode} : j ∈ (fs.modify i f).inodes ↔ j ∈ fs.inodes := by
  rw [Dict.mem_def, Dict.mem_def, get?_modify]
  split <;> simp

theorem child_modify {f : Inode → Inode} (hf : ∀ p, (f p).content = p.content) (fs : Fs) (i j : ℕ)
    (n : Text) : (fs.modify i f).child j n = fs.child j n := by
  rw [child, slots?_modify hf, child]

theorem get?_free : (fs.free i).inodes.get? j = if j = i then none else fs.inodes.get? j := by
  rw [free, Dict.get?_filterKeys]
  by_cases h : j = i <;> simp [h]

theorem walk_cons_of_child (h : fs.child i n = some k) : fs.walk i (n :: p) = fs.walk k p := by
  obtain ⟨ss, hss, hk⟩ := child_eq_some.mp h
  rw [walk, hss]
  simp only [hk]

theorem walk_cons_of_file (h : fs.slots? i = none) : fs.walk i (n :: p) = .error .enotdir := by
  rw [walk, h]

theorem walk_cons_of_missing {ss : List Slot} (h : fs.slots? i = some ss) (hn : fs.child i n = none) :
    fs.walk i (n :: p) = .error .enoent := by
  rw [child_of_slots h] at hn
  rw [walk, h]
  simp only [hn]

theorem walk_eq_ok : fs.walk i p = .ok k ↔ resolve fs.child i p = some k := by
  induction p generalizing i with
  | nil => rw [walk, resolve, Except.ok.injEq, Option.some.injEq]
  | cons n p ih =>
    rw [resolve]
    cases hn : fs.child i n with
    | some j => rw [walk_cons_of_child hn, ih, Option.bind_some]
    | none =>
      cases hss : fs.slots? i with
      | none => simp [walk_cons_of_file hss]
      | some ss => simp [walk_cons_of_missing hss hn]

theorem walk_append (q : List Text) :
    fs.walk i (q ++ p) = (fs.walk i q).bind fun d ↦ fs.walk d p := by
  induction q generalizing i with
  | nil => rfl
  | cons n q ih =>
    rw [List.cons_append]
    cases hn : fs.child i n with
    | some j => rw [walk_cons_of_child hn, walk_cons_of_child hn, ih]
    | none =>
      cases hss : fs.slots? i with
      | none => rw [walk_cons_of_file hss, walk_cons_of_file hss, Except.bind]
      | some ss => rw [walk_cons_of_missing hss hn, walk_cons_of_missing hss hn, Except.bind]

section NameiCreate

variable {path : Text} {q : List Text}

/-- What `namei` finds of a name that may be made. -/
theorem nameiCreate_cases (fs : Fs) (h : components path = q ++ [n]) :
    (∃ e, fs.nameiCreate path = .error e ∧ fs.namei path = .error e ∧
      (fs.walk rootIno q = .error e ∨ e = .enotdir)) ∨
    (∃ k, fs.nameiCreate path = .ok (.inl k) ∧ fs.namei path = .ok k) ∨
    ∃ d ss, fs.nameiCreate path = .ok (.inr (d, n)) ∧ fs.walk rootIno q = .ok d ∧
      fs.slots? d = some ss ∧ lookup n ss = none := by
  have hlast : (components path).getLast? = some n := by rw [h, List.getLast?_concat]
  have hinit : (components path).dropLast = q := by rw [h, List.dropLast_concat]
  unfold nameiCreate parentOf namei
  rw [hlast, hinit, h, walk_append]
  cases hd : fs.walk rootIno q with
  | error e => exact .inl ⟨e, rfl, rfl, .inl rfl⟩
  | ok d =>
    cases hss : fs.slots? d with
    | none =>
      exact .inl ⟨.enotdir, by simp [bind, Except.bind, hss], by simp [Except.bind, walk, hss], .inr rfl⟩
    | some ss =>
      cases hn : lookup n ss with
      | some k =>
        exact .inr (.inl ⟨k, by simp [bind, Except.bind, pure, Except.pure, hss, hn],
          by simp [Except.bind, walk, hss, hn]⟩)
      | none =>
        exact .inr (.inr ⟨d, ss, by simp [bind, Except.bind, pure, Except.pure, hss, hn], rfl, hss, hn⟩)

theorem nameiCreate_missing (h : components path = q ++ [n]) (hd : fs.walk rootIno q = .ok d)
    {ss : List Slot} (hss : fs.slots? d = some ss) (hn : fs.child d n = none) :
    fs.nameiCreate path = .ok (.inr (d, n)) := by
  rw [child_of_slots hss] at hn
  unfold nameiCreate parentOf
  rw [h, List.getLast?_concat, List.dropLast_concat]
  simp [hd, bind, Except.bind, pure, Except.pure, hss, hn]

theorem nameiDelete_missing (h : components path = q ++ [n]) (hd : fs.walk rootIno q = .ok d)
    {ss : List Slot} (hss : fs.slots? d = some ss) (hn : fs.child d n = none) :
    fs.nameiDelete path = .error .enoent := by
  rw [child_of_slots hss] at hn
  unfold nameiDelete parentOf
  rw [h, List.getLast?_concat, List.dropLast_concat]
  simp [hd, bind, Except.bind, hss, hn, throw, throwThe, MonadExceptOf.throw]

theorem nameiDelete_found (h : components path = q ++ [n]) (hd : fs.walk rootIno q = .ok d)
    (hn : fs.child d n = some k) : fs.nameiDelete path = .ok (d, n, k) := by
  obtain ⟨ss, hss, hn⟩ := child_eq_some.mp hn
  unfold nameiDelete parentOf
  rw [h, List.getLast?_concat, List.dropLast_concat]
  simp [hd, bind, Except.bind, pure, Except.pure, hss, hn]

end NameiCreate

end Fs

section Extends

/-- The attributes that `chown`, `chmod` and a read set. -/
def Inode.attributes (p : Inode) : ℕ × Word × Word × Time := (p.mode, p.uid, p.gid, p.atime)

def Inode.isDirectory (p : Inode) : Bool := p.content.slots?.isSome

/-- An inode keeps its kind; a directory keeps its attributes. -/
structure Alike (p p' : Inode) : Prop where
  directory : p'.isDirectory = p.isDirectory
  disk : isDisk p'.content = isDisk p.content
  attributes : p.isDirectory → p'.attributes = p.attributes

theorem Alike.refl (p : Inode) : Alike p p := ⟨rfl, rfl, fun _ ↦ rfl⟩

theorem Alike.trans {p q r : Inode} (h : Alike p q) (h' : Alike q r) : Alike p r where
  directory := h'.directory.trans h.directory
  disk := h'.disk.trans h.disk
  attributes hp := (h'.attributes (h.directory.trans hp)).trans (h.attributes hp)

/-- Names are only added, and what was there stays what it was. -/
structure Grows (fs fs' : Fs) : Prop where
  child {i n k} : fs.child i n = some k → fs'.child i n = some k
  inode {i p} : fs.inodes.get? i = some p → ∃ p', fs'.inodes.get? i = some p' ∧ Alike p p'
  fresh {i p'} : fs'.inodes.get? i = some p' → i ∉ fs.inodes → isDisk p'.content = false

/-- The names that are added lead to new inodes, `..` apart. -/
structure Extends (fs fs' : Fs) : Prop extends Grows fs fs' where
  named {i n k} : fs'.child i n = some k → k ∈ fs.inodes → n ≠ ['.', '.'] → fs.child i n = some k

variable {base fs fs' fs'' : Fs} {i j k : ℕ} {n : Text}

theorem Grows.refl (fs : Fs) : Grows fs fs where
  child h := h
  inode {_ p} h := ⟨p, h, Alike.refl p⟩
  fresh h hi := absurd (Dict.mem_iff_get?_eq_some.mpr ⟨_, h⟩) hi

theorem Grows.mem (h : Grows fs fs') (hi : i ∈ fs.inodes) : i ∈ fs'.inodes := by
  obtain ⟨p, hp⟩ := Dict.mem_iff_get?_eq_some.mp hi
  obtain ⟨p', hp', -⟩ := h.inode hp
  exact Dict.mem_iff_get?_eq_some.mpr ⟨p', hp'⟩

theorem Grows.trans (h : Grows fs fs') (h' : Grows fs' fs'') : Grows fs fs'' where
  child hc := h'.child (h.child hc)
  inode hp := by
    obtain ⟨p', hp', ha⟩ := h.inode hp
    obtain ⟨p'', hp'', ha'⟩ := h'.inode hp'
    exact ⟨p'', hp'', ha.trans ha'⟩
  fresh {i p''} hp hi := by
    by_cases hi' : i ∈ fs'.inodes
    · obtain ⟨p', hp'⟩ := Dict.mem_iff_get?_eq_some.mp hi'
      obtain ⟨q, hq, ha⟩ := h'.inode hp'
      obtain rfl := Option.some.inj (hq.symm.trans hp)
      exact ha.disk.trans (h.fresh hp' hi)
    · exact h'.fresh hp hi'

theorem Extends.refl (fs : Fs) : Extends fs fs := ⟨Grows.refl fs, fun h _ _ ↦ h⟩

theorem Extends.trans (h : Extends fs fs') (h' : Extends fs' fs'') : Extends fs fs'' :=
  ⟨h.toGrows.trans h'.toGrows, fun hc hk hn ↦ h.named (h'.named hc (h.mem hk) hn) hk hn⟩

theorem Extends.refresh (h : Extends base fs) : Extends base fs.refresh :=
  ⟨⟨h.child, h.inode, h.fresh⟩, h.named⟩

/-- The directory has a name that it did not have. -/
def Gains (fs fs' : Fs) (i : ℕ) : Prop := ∃ n k, fs.child i n = none ∧ fs'.child i n = some k

/-- The directories that were there are as old as they were, or have new names. -/
def Dated (fs fs' : Fs) : Prop :=
  ∀ i p p', fs.inodes.get? i = some p → p.isDirectory → fs'.inodes.get? i = some p' →
    p'.mtime = p.mtime ∨ Gains fs fs' i

theorem Grows.gains (h : Grows fs fs') (hg : Gains fs' fs'' i) : Gains fs fs'' i := by
  obtain ⟨n, k, hnone, hk⟩ := hg
  refine ⟨n, k, ?_, hk⟩
  cases hc : fs.child i n with
  | none => rfl
  | some l =>
    rw [h.child hc] at hnone
    cases hnone

theorem Dated.of_eq (h : ∀ j, fs'.inodes.get? j = fs.inodes.get? j) : Dated fs fs' := by
  intro i p p' hp _ hp'
  rw [h, hp] at hp'
  exact .inl (congrArg Inode.mtime (Option.some.inj hp').symm)

theorem Dated.trans (hgrows : Grows fs fs') (h : Dated fs fs') (hgrows' : Grows fs' fs'')
    (h' : Dated fs' fs'') : Dated fs fs'' := by
  intro i p p'' hp hdir hp''
  obtain ⟨p', hp', ha⟩ := hgrows.inode hp
  rcases h i p p' hp hdir hp' with heq | ⟨n, k, hnone, hk⟩
  · rcases h' i p' p'' hp' (ha.directory.trans hdir) hp'' with heq' | hg
    · exact .inl (heq'.trans heq)
    · exact .inr (hgrows.gains hg)
  · exact .inr ⟨n, k, hnone, hgrows'.child hk⟩

theorem isDisk_of_slots {c : Content} {ss : List Slot} (h : c.slots? = some ss) : isDisk c = false := by
  cases c with
  | directory ss => rfl
  | regular data => rfl
  | special block rdev => cases h

/-- No inode is the device of the disk. -/
def NoDisk (fs : Fs) : Prop := ∀ i p, fs.inodes.get? i = some p → isDisk p.content = false

theorem NoDisk.grows (hd : NoDisk fs) (h : Grows fs fs') : NoDisk fs' := by
  intro i p' hp'
  by_cases hi : i ∈ fs.inodes
  · obtain ⟨p, hp⟩ := Dict.mem_iff_get?_eq_some.mp hi
    obtain ⟨q, hq, ha⟩ := h.inode hp
    obtain rfl := Option.some.inj (hq.symm.trans hp')
    exact ha.disk.trans (hd i p hp)
  · exact h.fresh hp' hi

/-- A change to one inode. -/
theorem Grows.modify (h : Grows base fs) {f : Inode → Inode}
    (hchild : ∀ {n k}, base.child j n = some k → (fs.modify j f).child j n = some k)
    (hold : ∀ p, fs.inodes.get? j = some p → j ∈ base.inodes → Alike p (f p))
    (hnew : ∀ p, fs.inodes.get? j = some p → j ∉ base.inodes → isDisk (f p).content = false) :
    Grows base (fs.modify j f) where
  child {i n k} hc := by
    by_cases hi : i = j
    · exact hi ▸ hchild (hi ▸ hc)
    · have hslots : (fs.modify j f).slots? i = fs.slots? i := by
        rw [Fs.slots?, Fs.get?_modify, if_neg (Ne.symm hi), Fs.slots?]
      rw [Fs.child, hslots]
      exact h.child hc
  inode {i p} hp := by
    obtain ⟨p', hp', ha⟩ := h.inode hp
    rw [Fs.get?_modify]
    split
    · rename_i hi
      subst hi
      rw [hp']
      exact ⟨f p', rfl, ha.trans (hold p' hp' (Dict.mem_iff_get?_eq_some.mpr ⟨p, hp⟩))⟩
    · exact ⟨p', hp', ha⟩
  fresh {i p'} hp hi := by
    rw [Fs.get?_modify] at hp
    split at hp
    · rename_i hj
      subst hj
      obtain ⟨p, hp', rfl⟩ := Option.map_eq_some_iff.mp hp
      exact hnew p hp' hi
    · exact h.fresh hp hi

/-- A change of the metadata of one inode; a directory that was there keeps its attributes. -/
theorem Extends.modify (h : Extends base fs) {f : Inode → Inode} (hf : ∀ p, (f p).content = p.content)
    (hattr : ∀ p, fs.inodes.get? j = some p → j ∈ base.inodes → p.isDirectory →
      (f p).attributes = p.attributes) : Extends base (fs.modify j f) := by
  have hchild : ∀ i n, (fs.modify j f).child i n = fs.child i n := Fs.child_modify hf fs j
  refine ⟨h.toGrows.modify (fun hc ↦ ?_) (fun p hp hj ↦ ?_) fun p hp hj ↦ ?_, fun hc hk hn ↦ ?_⟩
  · rw [hchild]
    exact h.child hc
  · exact ⟨by rw [Inode.isDirectory, hf, Inode.isDirectory], by rw [hf], hattr p hp hj⟩
  · rw [hf]
    exact h.fresh hp hj
  · rw [hchild] at hc
    exact h.named hc hk hn

theorem Fs.slots?_setSlots {ss ss' : List Slot} {t : Time} (hss : fs.slots? j = some ss) (i : ℕ) :
    (fs.modify j fun p ↦ { p with content := .directory ss', mtime := t }).slots? i =
      if j = i then some ss' else fs.slots? i := by
  obtain ⟨q, hq, -⟩ := Option.bind_eq_some_iff.mp hss
  rw [Fs.slots?, Fs.get?_modify]
  split
  · rename_i hj
    subst hj
    rw [hq]
    rfl
  · rfl

/-- New slots for a directory. -/
theorem Grows.setSlots (h : Grows base fs) {ss ss' : List Slot} {t : Time} (hss : fs.slots? j = some ss)
    (hold : ∀ {n k}, base.child j n = some k → lookup n ss' = some k) :
    Grows base (fs.modify j fun p ↦ { p with content := .directory ss', mtime := t }) := by
  obtain ⟨q, hq, hqs⟩ := Option.bind_eq_some_iff.mp hss
  refine h.modify (fun hc ↦ ?_) (fun p hp _ ↦ ?_) fun p hp _ ↦ rfl
  · rw [Fs.child_of_slots ((Fs.slots?_setSlots hss j).trans (if_pos rfl))]
    exact hold hc
  · obtain rfl := Option.some.inj (hq.symm.trans hp)
    refine ⟨by rw [Inode.isDirectory, Inode.isDirectory, hqs]; rfl, ?_, fun _ ↦ rfl⟩
    revert hqs
    cases q.content <;> simp [Content.slots?, isDisk]

theorem Extends.setSlots (h : Extends base fs) {ss ss' : List Slot} {t : Time}
    (hss : fs.slots? j = some ss) (hold : ∀ {n k}, base.child j n = some k → lookup n ss' = some k)
    (hnew : ∀ {n k}, lookup n ss' = some k → k ∈ base.inodes → n ≠ ['.', '.'] → base.child j n = some k) :
    Extends base (fs.modify j fun p ↦ { p with content := .directory ss', mtime := t }) := by
  refine ⟨h.toGrows.setSlots hss hold, fun {i n k} hc hk hn ↦ ?_⟩
  by_cases hi : j = i
  · subst hi
    rw [Fs.child_of_slots ((Fs.slots?_setSlots hss j).trans (if_pos rfl))] at hc
    exact hnew hc hk hn
  · rw [Fs.child, Fs.slots?_setSlots hss, if_neg hi] at hc
    exact h.named hc hk hn

/-- A new inode without entries. -/
theorem Extends.insert (h : Extends base fs) {made : Inode} (hi : i ∉ fs.inodes)
    (hbare : ∀ n, (made.content.slots?.bind (lookup n)) = none) (hdisk : isDisk made.content = false) :
    Extends base { fs with inodes := fs.inodes.set i made } := by
  have hnone : fs.inodes.get? i = none := by
    by_contra hne
    exact hi hne
  have hchild : ∀ j n, Fs.child { fs with inodes := fs.inodes.set i made } j n = fs.child j n := by
    intro j n
    unfold Fs.child Fs.slots?
    rw [Dict.get?_set]
    split
    · rename_i hj
      rw [← hj, hnone]
      exact hbare n
    · rfl
  refine ⟨⟨fun hc ↦ ?_, fun {j p} hp ↦ ?_, fun {j p'} hp hj ↦ ?_⟩, fun hc hk hn ↦ ?_⟩
  · rw [hchild]
    exact h.child hc
  · obtain ⟨p', hp', ha⟩ := h.inode hp
    have hne : i ≠ j := by
      rintro rfl
      rw [hnone] at hp'
      cases hp'
    exact ⟨p', by rw [Dict.get?_set_of_ne _ _ hne, hp'], ha⟩
  · rw [Dict.get?_set] at hp
    split at hp
    · rw [← Option.some.inj hp]
      exact hdisk
    · exact h.fresh hp hj
  · rw [hchild] at hc
    exact h.named hc hk hn

theorem Extends.free (h : Extends base fs) (hi : i ∉ base.inodes) : Extends base (fs.free i) := by
  have hslots : ∀ j, (fs.free i).slots? j = if j = i then none else fs.slots? j := by
    intro j
    rw [Fs.slots?, Fs.get?_free]
    split <;> rfl
  refine ⟨⟨fun {j n k} hc ↦ ?_, fun {j p} hp ↦ ?_, fun {j p'} hp hj ↦ ?_⟩, fun {j n k} hc hk hn ↦ ?_⟩
  · have hne : j ≠ i := fun hj ↦ hi (hj ▸ Fs.mem_of_child hc)
    rw [Fs.child, hslots, if_neg hne]
    exact h.child hc
  · have hne : j ≠ i := fun hj ↦ hi (hj ▸ Dict.mem_iff_get?_eq_some.mpr ⟨p, hp⟩)
    rw [Fs.get?_free, if_neg hne]
    exact h.inode hp
  · rw [Fs.get?_free] at hp
    split at hp
    · cases hp
    · exact h.fresh hp hj
  · rw [Fs.child, hslots] at hc
    split at hc
    · cases hc
    · exact h.named hc hk hn

end Extends

section Entries

variable {host : Host} {base fs : Fs} {i d : ℕ} {n : Text} {ss : List Slot}

/-- Space never runs out. -/
def Roomy (host : Host) : Prop := ∀ fs, (ialloc host fs).isSome ∧ ∀ d, host.slotRoom fs d

theorem Extends.markGrown (h : Extends base fs) (d : ℕ) : Extends base (markGrown host fs d) := by
  refine h.modify (fun p ↦ ?_) fun p _ _ _ ↦ ?_
  · split <;> rfl
  · split <;> rfl

/-- The entry of a directory is written, or there is no room for it. -/
theorem wdir_cases (host : Host) (n : Text) (i : ℕ) (hss : fs.slots? d = some ss) :
    wdir host fs d n i = (fs.modify d fun p ↦
        { p with content := .directory (enterSlot n i ss), mtime := now host fs }, none) ∨
      ¬ Roomy host ∧ wdir host fs d n i = (markGrown host fs d, some .enospc) := by
  unfold wdir
  rw [hss]
  dsimp only
  split
  · exact .inl rfl
  · rename_i h
    exact .inr ⟨fun hroomy ↦ h (.inr ((hroomy fs).2 d)), rfl⟩

theorem Grows.enter (h : Grows base fs) (hss : fs.slots? d = some ss) (hn : lookup n ss = none)
    (t : Time) : Grows base (fs.modify d fun p ↦
      { p with content := .directory (enterSlot n i ss), mtime := t }) := by
  refine h.setSlots hss fun {m k} hc ↦ ?_
  have hm : lookup m ss = some k := Fs.child_of_slots hss ▸ h.child hc
  rw [lookup_enterSlot hn, if_neg]
  · exact hm
  · rintro rfl
    rw [hn] at hm
    cases hm

theorem Extends.enter (h : Extends base fs) (hss : fs.slots? d = some ss) (hn : lookup n ss = none)
    (hi : i ∈ base.inodes → n = ['.', '.']) (t : Time) : Extends base (fs.modify d fun p ↦
      { p with content := .directory (enterSlot n i ss), mtime := t }) := by
  refine ⟨h.toGrows.enter hss hn t, fun {j m k} hc hk hm ↦ ?_⟩
  rw [Fs.child, Fs.slots?_setSlots hss] at hc
  split at hc
  · rename_i hj
    subst hj
    rw [Option.bind_some, lookup_enterSlot hn] at hc
    split at hc
    · rename_i hmn
      exact absurd (hi (Option.some.inj hc ▸ hk)) (hmn ▸ hm)
    · exact h.named (Fs.child_of_slots hss ▸ hc) hk hm
  · exact h.named hc hk hm

section Link

variable {old path : Text} {fs' : Fs}

theorem v7fsLink_of_room (hold : fs.refresh.namei old = .ok i)
    (hnew : fs.refresh.nameiCreate path = .ok (.inr (d, n)))
    (hw : wdir host fs.refresh d n i = (fs', none)) :
    v7fsLink host fs old path = (fs'.modify i fun p ↦ { p with nlink := p.nlink + 1 }, none) := by
  rw [v7fsLink]
  simp only [hold, hnew]
  rw [hw]

theorem v7fsLink_of_full (hold : fs.refresh.namei old = .ok i)
    (hnew : fs.refresh.nameiCreate path = .ok (.inr (d, n))) {e : Errno}
    (hw : wdir host fs.refresh d n i = (fs', some e)) : v7fsLink host fs old path = (fs', some e) := by
  rw [v7fsLink]
  simp only [hold, hnew]
  rw [hw]

end Link

end Entries

section Sound

variable {fs : Fs} {i j k d : ℕ} {n : Text} {ss : List Slot} {t : Time}

/-- Every entry leads to an inode. -/
def Fs.Sound (fs : Fs) : Prop := ∀ i n k, fs.child i n = some k → k ∈ fs.inodes

theorem Fs.Sound.modify (h : fs.Sound) {f : Inode → Inode} (hf : ∀ p, (f p).content = p.content) :
    (fs.modify j f).Sound := by
  intro i n k hc
  rw [Fs.child_modify hf] at hc
  exact Fs.mem_modify.mpr (h i n k hc)

theorem Fs.Sound.enter (h : fs.Sound) (hss : fs.slots? d = some ss) (hn : lookup n ss = none)
    (hk : k ∈ fs.inodes) : (fs.modify d fun p ↦
      { p with content := .directory (enterSlot n k ss), mtime := t }).Sound := by
  intro i m l hc
  refine Fs.mem_modify.mpr ?_
  rw [Fs.child, Fs.slots?_setSlots hss] at hc
  split at hc
  · rw [Option.bind_some, lookup_enterSlot hn] at hc
    split at hc
    · exact Option.some.inj hc ▸ hk
    · exact h d m l (Fs.child_of_slots hss ▸ hc)
  · exact h i m l hc

theorem Fs.Sound.insert (h : fs.Sound) {made : Inode}
    (hbare : ∀ n, (made.content.slots?.bind (lookup n)) = none) :
    Fs.Sound { fs with inodes := fs.inodes.set i made } := by
  intro j n k hc
  refine Dict.mem_set.mpr (.inr ?_)
  unfold Fs.child Fs.slots? at hc
  rw [Dict.get?_set] at hc
  split at hc
  · rw [Option.bind_some, hbare n] at hc
    cases hc
  · exact h j n k hc

end Sound

section Mkdir

variable {host : Host} {base fs : Fs} {d i j : ℕ} {n m : Text} {ss si : List Slot} {t : Time}

theorem lookup_clearSlot_of_ne (h : m ≠ n) (ss : List Slot) : lookup m (clearSlot n ss) = lookup m ss := by
  induction ss with
  | nil => rfl
  | cons s ss ih =>
    cases s with
    | none => exact ih
    | some e =>
      obtain ⟨l, k⟩ := e
      rw [clearSlot]
      split
      · rename_i hl
        rw [lookup, lookup, if_neg fun hm ↦ h (hm.symm.trans hl)]
      · rw [lookup, lookup, ih]

/-- The new inode `i` has its entry `n` in `d`, whose slots were `ss`; all else is as it was. -/
structure Making (base : Fs) (d : ℕ) (n : Text) (i : ℕ) (ss : List Slot) (fs : Fs) : Prop where
  fresh : i ∉ base.inodes
  parent : base.slots? d = some ss
  missing : lookup n ss = none
  entered : fs.slots? d = some (enterSlot n i ss)
  frame {k : ℕ} : k ≠ d → k ∈ base.inodes → fs.inodes.get? k = base.inodes.get? k
  only {k : ℕ} : k ∈ fs.inodes → k ∈ base.inodes ∨ k = i
  owner {p p'} : base.inodes.get? d = some p → fs.inodes.get? d = some p' → p'.attributes = p.attributes
  inside {l : Text} {k : ℕ} : fs.child i l = some k → l = ['.', '.'] ∨ k = i

namespace Making

theorem ne (h : Making base d n i ss fs) : d ≠ i := fun hd ↦ h.fresh (hd ▸ Fs.mem_of_slots h.parent)

theorem child (h : Making base d n i ss fs) : fs.child d n = some i := by
  rw [Fs.child_of_slots h.entered, lookup_enterSlot h.missing, if_pos rfl]

theorem child_of_ne (h : Making base d n i ss fs) (hm : m ≠ n) : fs.child d m = base.child d m := by
  rw [Fs.child_of_slots h.entered, lookup_enterSlot h.missing, if_neg hm, Fs.child_of_slots h.parent]

theorem get?_of_ne (h : Making base d n i ss fs) (hd : j ≠ d) (hi : j ≠ i) :
    fs.inodes.get? j = base.inodes.get? j := by
  by_cases hj : j ∈ base.inodes
  · exact h.frame hd hj
  · have hj' : j ∉ fs.inodes := fun hmem ↦ (h.only hmem).elim hj hi
    rw [Dict.mem_def, not_not] at hj hj'
    rw [hj, hj']

theorem child_frame (h : Making base d n i ss fs) (hd : j ≠ d) (hi : j ≠ i) : fs.child j m = base.child j m := by
  rw [Fs.child, Fs.slots?, h.get?_of_ne hd hi, Fs.child, Fs.slots?]

theorem mono (h : Making base d n i ss fs) {k : ℕ} (hc : base.child j m = some k) : fs.child j m = some k := by
  by_cases hd : j = d
  · subst hd
    rw [h.child_of_ne, hc]
    rintro rfl
    rw [Fs.child_of_slots h.parent, h.missing] at hc
    cases hc
  · rwa [h.child_frame hd fun hi ↦ h.fresh (hi ▸ Fs.mem_of_child hc)]

theorem ext (h : Making base d n i ss fs) (hdisk : ∀ p, fs.inodes.get? i = some p → isDisk p.content = false) :
    Extends base fs where
  child := h.mono
  inode {j p} hp := by
    by_cases hd : j = d
    · subst hd
      obtain ⟨q, hq, hqs⟩ := Option.bind_eq_some_iff.mp h.parent
      obtain rfl := Option.some.inj (hq.symm.trans hp)
      obtain ⟨p', hp', hps⟩ := Option.bind_eq_some_iff.mp h.entered
      refine ⟨p', hp', ?_, ?_, fun _ ↦ h.owner hp hp'⟩
      · rw [Inode.isDirectory, Inode.isDirectory, hqs, hps]
        rfl
      · rw [isDisk_of_slots hqs, isDisk_of_slots hps]
    · rw [h.frame hd (Dict.mem_iff_get?_eq_some.mpr ⟨p, hp⟩)]
      exact ⟨p, hp, Alike.refl p⟩
  fresh {j p'} hp hj := by
    obtain rfl := (h.only (Dict.mem_iff_get?_eq_some.mpr ⟨p', hp⟩)).resolve_left hj
    exact hdisk p' hp
  named {j m k} hc hk hm := by
    by_cases hd : j = d
    · subst hd
      by_cases hmn : m = n
      · rw [hmn, h.child] at hc
        exact absurd (Option.some.inj hc ▸ hk) h.fresh
      · rwa [h.child_of_ne hmn] at hc
    · by_cases hi : j = i
      · subst hi
        rcases h.inside hc with hdots | rfl
        · exact absurd hdots hm
        · exact absurd hk h.fresh
      · rwa [h.child_frame hd hi] at hc

theorem ext_of_slots (h : Making base d n i ss fs) (hsi : fs.slots? i = some si) : Extends base fs := by
  obtain ⟨q, hq, hqs⟩ := Option.bind_eq_some_iff.mp hsi
  refine h.ext fun p hp ↦ ?_
  obtain rfl := Option.some.inj (hq.symm.trans hp)
  exact isDisk_of_slots hqs

theorem refresh (h : Making base d n i ss fs) : Making base d n i ss fs.refresh :=
  ⟨h.fresh, h.parent, h.missing, h.entered, h.frame, h.only, h.owner, h.inside⟩

theorem gains (h : Making base d n i ss fs) : Gains base fs d :=
  ⟨n, i, (Fs.child_of_slots h.parent).trans h.missing, h.child⟩

theorem dated (h : Making base d n i ss fs) : Dated base fs := by
  intro j p p' hp _ hp'
  by_cases hj : j = d
  · exact .inr (hj ▸ h.gains)
  · rw [h.frame hj (Dict.mem_iff_get?_eq_some.mpr ⟨p, hp⟩), hp] at hp'
    exact .inl (congrArg Inode.mtime (Option.some.inj hp').symm)

/-- A change of the metadata of the new inode, or of what the parent's owner cannot see. -/
theorem modify (h : Making base d n i ss fs) {f : Inode → Inode} (hf : ∀ p, (f p).content = p.content)
    (hold : j ∈ base.inodes → j = d ∧ ∀ p, (f p).attributes = p.attributes) :
    Making base d n i ss (fs.modify j f) where
  fresh := h.fresh
  parent := h.parent
  missing := h.missing
  entered := (Fs.slots?_modify hf fs j d).trans h.entered
  frame {k} hk hmem := by
    rw [Fs.get?_modify, if_neg fun hj : j = k ↦ hk (hj ▸ (hold (hj ▸ hmem)).1)]
    exact h.frame hk hmem
  only hmem := h.only (Fs.mem_modify.mp hmem)
  owner {p p'} hp hp' := by
    rw [Fs.get?_modify] at hp'
    split at hp'
    · rename_i hj
      subst hj
      obtain ⟨p₁, hp₁, rfl⟩ := Option.map_eq_some_iff.mp hp'
      exact ((hold (Fs.mem_of_slots h.parent)).2 p₁).trans (h.owner hp hp₁)
    · exact h.owner hp hp'
  inside hc := h.inside ((Fs.child_modify hf fs j i _).symm.trans hc)

/-- The slots of the new directory, where only `..` leads to what was there. -/
theorem setSlots (h : Making base d n i ss fs) (hsi : fs.slots? i = some si) {si' : List Slot}
    (hnew : ∀ {m k}, lookup m si' = some k → m = ['.', '.'] ∨ k = i) :
    Making base d n i ss (fs.modify i fun p ↦ { p with content := .directory si', mtime := t }) where
  fresh := h.fresh
  parent := h.parent
  missing := h.missing
  entered := by
    rw [Fs.slots?_setSlots hsi, if_neg h.ne.symm]
    exact h.entered
  frame {j} hj hmem := by
    rw [Fs.get?_modify, if_neg fun hi : i = j ↦ h.fresh (hi ▸ hmem)]
    exact h.frame hj hmem
  only hmem := h.only (Fs.mem_modify.mp hmem)
  owner {p p'} hp hp' := by
    rw [Fs.get?_modify, if_neg h.ne.symm] at hp'
    exact h.owner hp hp'
  inside hc := hnew ((Fs.child_of_slots ((Fs.slots?_setSlots hsi i).trans (if_pos rfl))).symm.trans hc)

theorem enterDot (h : Making base d n i ss fs) (hsi : fs.slots? i = some si) (hm : lookup m si = none)
    {k : ℕ} (hdot : m = ['.', '.'] ∨ k = i) (t : Time) :
    Making base d n i ss (fs.modify i fun p ↦
      { p with content := .directory (enterSlot m k si), mtime := t }) := by
  refine h.setSlots hsi fun {l k'} hl ↦ ?_
  rw [lookup_enterSlot hm] at hl
  split at hl
  · rename_i hlm
    exact hdot.imp hlm.trans fun hk ↦ (Option.some.inj hl).symm.trans hk
  · exact h.inside ((Fs.child_of_slots hsi).trans hl)

variable {q : List Text} {path : Text}

theorem walk (h : Making base d n i ss fs) (hq : base.walk rootIno q = .ok d) :
    fs.walk rootIno q = .ok d ∧ fs.walk rootIno (q ++ [n]) = .ok i := by
  have hd : fs.walk rootIno q = .ok d :=
    Fs.walk_eq_ok.mpr (resolve_mono (fun _ _ _ ↦ h.mono) (Fs.walk_eq_ok.mp hq))
  refine ⟨hd, ?_⟩
  rw [Fs.walk_append, hd, Except.bind, Fs.walk_cons_of_child h.child]
  rfl

/-- A link of `.` or `..` in the new directory. -/
theorem link (host : Host) (h : Making base d n i ss fs) (hsi : fs.slots? i = some si) (hm : lookup m si = none)
    (hq : base.walk rootIno q = .ok d) (hpath : components path = q ++ [n] ++ [m]) {old : Text} {k : ℕ}
    (hold : fs.namei old = .ok k) (hk : k ∈ fs.inodes) (hdot : k = d ∧ m = ['.', '.'] ∨ k = i) :
    Making base d n i ss (v7fsLink host fs old path).1 ∧
      ((v7fsLink host fs old path).2 = none ∧
          (v7fsLink host fs old path).1.slots? i = some (enterSlot m k si) ∧
          (fs.Sound → (v7fsLink host fs old path).1.Sound) ∨
        ¬ Roomy host ∧ (v7fsLink host fs old path).2 ≠ none ∧
          (v7fsLink host fs old path).1.slots? i = some si) := by
  have hcreate : fs.refresh.nameiCreate path = .ok (.inr (i, m)) := by
    refine Fs.nameiCreate_missing hpath ((Fs.walk_congr (fun j ↦ fs.slots?_refresh j) _ _).trans
      (h.walk hq).2) hsi ?_
    rw [Fs.child, Fs.slots?_refresh, hsi]
    exact hm
  have hnamei : fs.refresh.namei old = .ok k := (Fs.namei_refresh fs old).trans hold
  rcases wdir_cases host m k (show fs.refresh.slots? i = some si from hsi) with hw | ⟨hroomy, hw⟩
  · have hmade := h.refresh.enterDot hsi hm (hdot.imp And.right id) (now host fs.refresh)
    rw [v7fsLink_of_room hnamei hcreate hw]
    have hparent : k ∈ base.inodes → k = d ∧ ∀ p : Inode, p.attributes = p.attributes := fun hmem ↦
      ⟨hdot.elim And.left fun hki ↦ absurd (hki ▸ hmem) h.fresh, fun _ ↦ rfl⟩
    refine ⟨hmade.modify (fun _ ↦ rfl) hparent, .inl ⟨rfl, ?_, fun hs ↦ ?_⟩⟩
    · have hsi' : fs.refresh.slots? i = some si := hsi
      refine (Fs.slots?_modify ?_ _ _ _).trans ((Fs.slots?_setSlots hsi' i).trans (if_pos rfl))
      exact fun _ ↦ rfl
    · have hs' : fs.refresh.Sound := hs
      exact (hs'.enter hsi hm hk).modify fun _ ↦ rfl
  · rw [v7fsLink_of_full hnamei hcreate hw]
    refine ⟨h.refresh.modify (fun p ↦ ?_) fun hi ↦ absurd hi h.fresh, .inr ⟨hroomy, nofun, ?_⟩⟩
    · split <;> rfl
    · exact (Fs.slots?_modify (fun p ↦ by split <;> rfl) _ _ _).trans hsi

end Making

/-- A new file has its entry, or nothing is made. -/
theorem maknode_cases (host : Host) (n : Text) (content : Content) (mode : ℕ)
    (hss : fs.slots? d = some ss) (hn : lookup n ss = none)
    (hbare : ∀ m, (content.slots?.bind (lookup m)) = none) :
    (∃ i fs', maknode host fs d n content mode = (fs', .ok i) ∧ Making fs d n i ss fs' ∧
      (∃ p, fs'.inodes.get? i = some p ∧ p.content = content ∧ p.mode = mode ∧ p.nlink = 1 ∧ p.uid = 0 ∧ p.gid = 0) ∧
      (fs.Sound → fs'.Sound)) ∨
    ¬ Roomy host ∧ ∃ fs' e, maknode host fs d n content mode = (fs', .error e) ∧
      (isDisk content = false → Extends fs fs') := by
  unfold maknode
  split
  · rename_i hnone
    refine .inr ⟨fun hroomy ↦ ?_, _, .enospc, rfl, fun _ ↦ (Extends.refl fs).markGrown d⟩
    have hsome := (hroomy fs).1
    rw [hnone] at hsome
    cases hsome
  · rename_i i hi
    have hfree : i ∉ fs.inodes := by
      have := (Option.filter_eq_some_iff.mp hi).2
      simpa using (decide_eq_true_iff.mp this).2
    have hd : d ≠ i := fun hd ↦ hfree (hd ▸ Fs.mem_of_slots hss)
    let made : Inode := ⟨content, mode, 1, 0, 0, now host fs, now host fs⟩
    have hss' : Fs.slots? { fs with inodes := fs.inodes.set i made } d = some ss := by
      rw [Fs.slots?, Dict.get?_set_of_ne _ _ hd.symm]
      exact hss
    dsimp only
    rcases wdir_cases host n i hss' with hw | ⟨hroomy, hw⟩
    · rw [hw]
      have hmade : ∀ {f : Inode → Inode},
          (Fs.modify { fs with inodes := fs.inodes.set i made } d f).inodes.get? i = some made := by
        intro f
        rw [Fs.get?_modify, if_neg hd, Dict.get?_set_self]
      refine .inl ⟨i, _, rfl, ⟨hfree, hss, hn, ?_, ?_, ?_, ?_, ?_⟩, ?_, fun hs ↦ ?_⟩
      · exact (Fs.slots?_setSlots hss' d).trans (if_pos rfl)
      · intro j hj hmem
        rw [Fs.get?_modify, if_neg (Ne.symm hj), Dict.get?_set_of_ne _ _ fun hij : i = j ↦ hfree (hij ▸ hmem)]
      · intro j hmem
        exact (Dict.mem_set.mp (Fs.mem_modify.mp hmem)).symm
      · intro p p' hp hp'
        rw [Fs.get?_modify, if_pos rfl, Dict.get?_set_of_ne _ _ hd.symm, hp] at hp'
        obtain rfl := Option.some.inj hp'
        rfl
      · intro m k hc
        rw [Fs.child, Fs.slots?, hmade, Option.bind_some, hbare m] at hc
        cases hc
      · exact ⟨made, hmade, rfl, rfl, rfl, rfl, rfl⟩
      · exact (hs.insert hbare).enter hss' hn (Dict.mem_set.mpr (.inl rfl))
    · rw [hw]
      refine .inr ⟨hroomy, _, .enospc, rfl, fun hdisk ↦ ?_⟩
      have hext : Extends fs { fs with inodes := fs.inodes.set i made } :=
        (Extends.refl fs).insert hfree hbare hdisk
      exact (hext.markGrown d).free hfree

section Undo

variable {q : List Text} {path : Text}

theorem v7fsUnlink_of_found {k : ℕ} {fs : Fs} (hd : fs.slots? d = some ss)
    (h : fs.refresh.nameiDelete path = .ok (d, n, k)) :
    (v7fsUnlink host fs path).1 = dropLink (fs.refresh.modify d fun p ↦
      { p with content := .directory (clearSlot n ss), mtime := now host fs.refresh }) k := by
  obtain ⟨p, hp, hps⟩ := Option.bind_eq_some_iff.mp hd
  rw [v7fsUnlink]
  simp only [h]
  congr 1
  unfold Fs.modify
  rw [show fs.refresh.inodes.get? d = some p from hp]
  simp only [hps, Option.getD_some]

theorem v7fsUnlink_of_missing {fs : Fs} {e : Errno} (h : fs.refresh.nameiDelete path = .error e) :
    (v7fsUnlink host fs path).1 = fs.refresh := by
  rw [v7fsUnlink]
  simp only [h]

/-- Dropping the links of a new inode leaves what was there alone. -/
theorem Extends.dropLink (h : Extends base fs) (hi : i ∉ base.inodes) : Extends base (dropLink fs i) := by
  unfold V7.dropLink
  split
  · exact h.free hi
  · exact h.modify (fun _ ↦ rfl) fun _ _ hj ↦ absurd hj hi

theorem slots?_dropLink (hd : d ≠ i) : (dropLink fs i).slots? d = fs.slots? d := by
  unfold dropLink
  split
  · rw [Fs.slots?, Fs.get?_free, if_neg hd]
    rfl
  · refine Fs.slots?_modify ?_ _ _ _
    exact fun _ ↦ rfl

/-- A directory that was not finished is taken away again. -/
theorem Making.undo (h : Making base d n i ss fs) (hsi : fs.slots? i = some si)
    (hshape : si = [] ∨ si = [some (['.'], i)])
    (hq : base.walk rootIno q = .ok d) (hpath : components path = q ++ [n])
    (hone : components (path ++ ['/', '.']) = q ++ [n] ++ [['.']])
    (htwo : components (path ++ ['/', '.', '.']) = q ++ [n] ++ [['.', '.']]) (e : Errno) :
    Extends base (undoMkdir host fs path e).1 := by
  have hsi' : fs.refresh.slots? i = some si := hsi
  have hsi'' : fs.refresh.refresh.slots? i = some si := hsi
  have hwalk : ∀ {fs : Fs}, Extends base fs → fs.walk rootIno q = .ok d := fun hext ↦
    Fs.walk_eq_ok.mpr (resolve_mono (fun _ _ _ ↦ hext.child) (Fs.walk_eq_ok.mp hq))
  have hchild : ∀ fs : Fs, fs.slots? d = some (enterSlot n i ss) → fs.child d n = some i := by
    intro fs hd
    rw [Fs.child_of_slots hd, lookup_enterSlot h.missing, if_pos rfl]
  have hfirst : (v7fsUnlink host fs (path ++ ['/', '.', '.'])).1 = fs.refresh :=
    v7fsUnlink_of_missing (Fs.nameiDelete_missing htwo (h.refresh.walk hq).2 hsi'
      ((Fs.child_of_slots hsi').trans (by rcases hshape with rfl | rfl <;> rfl)))
  -- the directory may be freed with its own entry: only its parent matters from here on
  have hsecond : Extends base (v7fsUnlink host fs.refresh (path ++ ['/', '.'])).1 ∧
      (v7fsUnlink host fs.refresh (path ++ ['/', '.'])).1.slots? d = some (enterSlot n i ss) := by
    rcases hshape with rfl | rfl
    · rw [v7fsUnlink_of_missing (Fs.nameiDelete_missing hone (h.refresh.refresh.walk hq).2 hsi''
        (Fs.child_of_slots hsi''))]
      exact ⟨(h.ext_of_slots hsi).refresh.refresh, h.entered⟩
    · rw [v7fsUnlink_of_found hsi' (Fs.nameiDelete_found hone (h.refresh.refresh.walk hq).2
        (Fs.child_of_slots hsi''))]
      have hbare : ∀ {m k}, lookup m (clearSlot ['.'] [some (['.'], i)]) = some k →
          m = ['.', '.'] ∨ k = i := nofun
      have hcleared := h.refresh.refresh.setSlots (t := now host fs.refresh.refresh) hsi'' hbare
      have hext := hcleared.ext_of_slots ((Fs.slots?_setSlots hsi'' i).trans (if_pos rfl))
      exact ⟨hext.dropLink h.fresh, (slots?_dropLink h.ne).trans hcleared.entered⟩
  obtain ⟨hext, hd⟩ := hsecond
  rw [undoMkdir, hfirst]
  rw [v7fsUnlink_of_found hd (Fs.nameiDelete_found hpath (hwalk hext.refresh) (hchild (Fs.refresh _) hd))]
  refine Extends.dropLink (Extends.setSlots hext.refresh hd ?_ ?_) h.fresh
  · intro m k hc
    rw [lookup_clearSlot_enterSlot h.missing, ← Fs.child_of_slots h.parent]
    exact hc
  · intro m k hc _ _
    rw [lookup_clearSlot_enterSlot h.missing, ← Fs.child_of_slots h.parent] at hc
    exact hc

end Undo

section Calls

variable {q : List Text} {path : Text}

/-- The path names that `v7fs_mkdir` makes of its argument. -/
structure MkdirPath (path : Text) (q : List Text) (n : Text) : Prop where
  self : components path = q ++ [n]
  dot : components (path ++ ['/', '.']) = q ++ [n] ++ [['.']]
  dotdot : components (path ++ ['/', '.', '.']) = q ++ [n] ++ [['.', '.']]
  dirname : components (dirname path) = q

theorem Making.namei (h : Making base d n i ss fs) (hq : base.walk rootIno q = .ok d)
    (hpath : components path = q ++ [n]) : fs.namei path = .ok i := by
  rw [Fs.namei, hpath]
  exact (h.walk hq).2

theorem Making.own (host : Host) (h : Making base d n i ss fs) (hq : base.walk rootIno q = .ok d)
    (hpath : components path = q ++ [n]) (mode : ℕ) :
    Making base d n i ss (ownMkdir host fs path mode).1 ∧ (ownMkdir host fs path mode).2 = none ∧
      (ownMkdir host fs path mode).1.slots? i = fs.slots? i ∧
      (fs.Sound → (ownMkdir host fs path mode).1.Sound) := by
  have howned : Making base d n i ss (fs.modify i fun p ↦ { p with uid := 0, mtime := now host fs }) :=
    h.modify (fun _ ↦ rfl) fun hi ↦ absurd hi h.fresh
  have hown : ownMkdir host fs path mode =
      (Fs.modify (Fs.refresh (fs.modify i fun p ↦ { p with uid := 0, mtime := now host fs })) i
        fun p ↦ { p with mode := mode &&& 0o7777 }, none) := by
    rw [ownMkdir, h.namei hq hpath]
    exact onInode_of_ok (howned.namei hq hpath)
  rw [hown]
  refine ⟨howned.refresh.modify (fun _ ↦ rfl) fun hi ↦ absurd hi h.fresh, rfl, ?_, fun hs ↦ ?_⟩
  · refine (Fs.slots?_modify ?_ _ _ _).trans ((Fs.slots?_refresh _ i).trans (Fs.slots?_modify ?_ _ _ _))
    · exact fun _ ↦ rfl
    · exact fun _ ↦ rfl
  have hs' : Fs.Sound (Fs.refresh (fs.modify i fun p ↦ { p with uid := 0, mtime := now host fs })) :=
    hs.modify fun _ ↦ rfl
  exact hs'.modify fun _ ↦ rfl

theorem Making.finish (host : Host) (h : Making base d n i ss fs) (hsi : fs.slots? i = some [])
    (hq : base.walk rootIno q = .ok d) (hself : components path = q ++ [n])
    (hone : components (path ++ ['/', '.']) = q ++ [n] ++ [['.']])
    (htwo : components (path ++ ['/', '.', '.']) = q ++ [n] ++ [['.', '.']])
    (hup : ∀ fs, Making base d n i ss fs → fs.namei (V7.dirname path) = .ok d) (mode : ℕ) :
    Making base d n i ss (finishMkdir host fs path mode).1 ∧
      ((finishMkdir host fs path mode).2 = none ∧
          (finishMkdir host fs path mode).1.slots? i = some [some (['.'], i), some (['.', '.'], d)] ∧
          (fs.Sound → (finishMkdir host fs path mode).1.Sound) ∨
        ¬ Roomy host ∧ (finishMkdir host fs path mode).2 ≠ none ∧
          ∃ si, (finishMkdir host fs path mode).1.slots? i = some si ∧
            (si = [] ∨ si = [some (['.'], i)])) := by
  unfold finishMkdir
  obtain ⟨hmade₁, hlink₁⟩ := h.link host hsi rfl hq hone (h.namei hq hself)
    (Fs.mem_of_slots hsi) (.inr rfl)
  generalize v7fsLink host fs path (path ++ ['/', '.']) = r₁ at hmade₁ hlink₁ ⊢
  rcases hlink₁ with ⟨hok₁, hs₁, hsound₁⟩ | ⟨hroomy, hfail, hs₁⟩
  · obtain ⟨hmade₂, hlink₂⟩ := hmade₁.link host hs₁ rfl hq htwo (hup _ hmade₁)
      (Fs.mem_of_slots hmade₁.entered) (.inl ⟨rfl, rfl⟩)
    simp only [hok₁]
    generalize v7fsLink host r₁.1 (V7.dirname path) (path ++ ['/', '.', '.']) = r₂ at hmade₂ hlink₂ ⊢
    rcases hlink₂ with ⟨hok₂, hs₂, hsound₂⟩ | ⟨hroomy, hfail, hs₂⟩
    · simp only [hok₂]
      obtain ⟨hmade, hok, hslots, hsound⟩ := hmade₂.own host hq hself mode
      exact ⟨hmade, .inl ⟨hok, hslots.trans hs₂, fun hs ↦ hsound (hsound₂ (hsound₁ hs))⟩⟩
    · obtain ⟨e, he⟩ := Option.ne_none_iff_exists'.mp hfail
      simp only [he]
      exact ⟨hmade₂, .inr ⟨hroomy, nofun, _, hs₂, .inr rfl⟩⟩
  · obtain ⟨e, he⟩ := Option.ne_none_iff_exists'.mp hfail
    simp only [he]
    exact ⟨hmade₁, .inr ⟨hroomy, nofun, _, hs₁, .inl rfl⟩⟩

/-- `v7fs_mkdir` adds a directory or nothing. -/
theorem v7fsMkdir_spec (host : Host) (fs : Fs) (hpath : MkdirPath path q n) (mode : ℕ) :
    Extends fs (v7fsMkdir host fs path mode).1 ∧
      ((v7fsMkdir host fs path mode).2 = none →
        ∃ i, i ∉ fs.inodes ∧ (v7fsMkdir host fs path mode).1.namei path = .ok i) ∧
      (Roomy host → fs.Sound → (v7fsMkdir host fs path mode).1.Sound ∧
        ((v7fsMkdir host fs path mode).1.namei path ≠ .error .enoent ∨
          fs.walk rootIno q = .error .enoent)) ∧
      (Roomy host → Dated fs (v7fsMkdir host fs path mode).1) := by
  have hbase : Extends fs fs.refresh := (Extends.refl fs).refresh
  unfold v7fsMkdir
  rcases Fs.nameiCreate_cases fs.refresh hpath.self with
    ⟨e, hcreate, hnamei, hwhy⟩ | ⟨k, hcreate, hnamei⟩ | ⟨d, ss, hcreate, hq, hss, hn⟩
  · simp only [hcreate]
    refine ⟨hbase, nofun, fun _ hs ↦ ⟨hs, ?_⟩, fun _ ↦ Dated.of_eq fun _ ↦ rfl⟩
    rw [hnamei]
    rcases hwhy with hwalk | rfl
    · by_cases he : e = .enoent
      · subst he
        exact .inr ((Fs.walk_congr (fun i ↦ fs.slots?_refresh i) _ _).symm.trans hwalk)
      · exact .inl fun h ↦ he (Except.error.inj h)
    · exact .inl nofun
  · simp only [hcreate]
    refine ⟨hbase, nofun, fun _ hs ↦ ⟨hs, .inl ?_⟩, fun _ ↦ Dated.of_eq fun _ ↦ rfl⟩
    rw [hnamei]
    exact nofun
  · simp only [hcreate]
    rcases maknode_cases host n (.directory []) 0o700 hss hn (fun _ ↦ rfl) with
      ⟨i, fs', hmk, hmaking, hcontent, hsound⟩ | ⟨hroomy, fs', e, hmk, hext⟩
    · have hsi : fs'.slots? i = some [] := by
        obtain ⟨p, hp, hpc, -⟩ := hcontent
        rw [Fs.slots?, hp, Option.bind_some, hpc]
        rfl
      simp only [hmk]
      obtain ⟨hmade, hfinish⟩ := hmaking.finish host hsi hq hpath.self hpath.dot hpath.dotdot
        (fun fs' h ↦ by rw [Fs.namei, hpath.dirname]; exact (h.walk hq).1) mode
      generalize finishMkdir host fs' path mode = r at hmade hfinish ⊢
      rcases hfinish with ⟨hok, hslots, hsound'⟩ | ⟨hroomy, hfail, si, hsi', hshape⟩
      · simp only [hok]
        refine ⟨hbase.trans (hmade.ext_of_slots hslots), fun _ ↦ ⟨i, hmade.fresh, hmade.namei hq hpath.self⟩, fun _ hs ↦
          ⟨hsound' (hsound hs), .inl ?_⟩, fun _ ↦ hmade.dated⟩
        rw [hmade.namei hq hpath.self]
        exact nofun
      · obtain ⟨e, he⟩ := Option.ne_none_iff_exists'.mp hfail
        simp only [he]
        exact ⟨hbase.trans (hmade.undo hsi' hshape hq hpath.self hpath.dot hpath.dotdot e), nofun,
          fun h ↦ absurd h hroomy, fun h ↦ absurd h hroomy⟩
    · simp only [hmk]
      exact ⟨hbase.trans (hext rfl), nofun, fun h ↦ absurd h hroomy, fun h ↦ absurd h hroomy⟩

end Calls

end Mkdir

section Link

variable {host : Host} {base fs : Fs} {d : ℕ} {n path : Text}

theorem Fs.nameiCreate_inr (h : fs.nameiCreate path = .ok (.inr (d, n))) :
    ∃ ss, fs.slots? d = some ss ∧ lookup n ss = none := by
  rcases List.eq_nil_or_concat (components path) with hnil | ⟨q, m, hq⟩
  · rw [Fs.nameiCreate, Fs.parentOf, hnil] at h
    cases h
  · rw [List.concat_eq_append] at hq
    rcases Fs.nameiCreate_cases fs hq with ⟨e, he, -⟩ | ⟨k, hk, -⟩ | ⟨d', ss, hd, -, hss, hn⟩
    · rw [he] at h
      cases h
    · rw [hk] at h
      cases h
    · rw [hd] at h
      cases h
      exact ⟨ss, hss, hn⟩

/-- A new name for an inode, with the count of its links. -/
theorem Grows.link (h : Grows base fs) (i : ℕ) : Grows base (fs.modify i fun p ↦ { p with nlink := p.nlink + 1 }) := by
  refine h.modify (fun hc ↦ ?_) (fun p _ _ ↦ ⟨rfl, rfl, fun _ ↦ rfl⟩) fun p hp hi ↦
    (show isDisk p.content = false from h.fresh hp hi)
  refine (Fs.child_modify ?_ _ _ _ _).trans (h.child hc)
  exact fun _ ↦ rfl

theorem dated_link {ss : List Slot} (hss : fs.slots? d = some ss) (hn : lookup n ss = none) (i : ℕ) (t : Time) :
    Dated fs (Fs.modify (fs.modify d fun p ↦ { p with content := .directory (enterSlot n i ss), mtime := t }) i
      fun p ↦ { p with nlink := p.nlink + 1 }) := by
  intro j p p' hp _ hp'
  by_cases hj : d = j
  · subst hj
    refine .inr ⟨n, i, (Fs.child_of_slots hss).trans hn, ?_⟩
    refine (Fs.child_modify ?_ _ _ _ _).trans ?_
    · exact fun _ ↦ rfl
    · rw [Fs.child_of_slots ((Fs.slots?_setSlots hss d).trans (if_pos rfl)), lookup_enterSlot hn, if_pos rfl]
  · rw [Fs.get?_modify, Fs.get?_modify, if_neg hj, hp] at hp'
    split at hp' <;> obtain rfl := Option.some.inj hp' <;> exact .inl rfl

/-- `v7fs_link` adds a name or nothing. -/
theorem v7fsLink_spec (host : Host) (fs : Fs) (old path : Text) :
    Grows fs (v7fsLink host fs old path).1 ∧ (Roomy host → Dated fs (v7fsLink host fs old path).1) := by
  have hbase : Extends fs fs.refresh := (Extends.refl fs).refresh
  have hsame : Roomy host → Dated fs fs.refresh := fun _ ↦ Dated.of_eq fun _ ↦ rfl
  cases hold : fs.refresh.namei old with
  | error e =>
    rw [v7fsLink]
    simp only [hold]
    exact ⟨hbase.toGrows, hsame⟩
  | ok i =>
    cases hnew : fs.refresh.nameiCreate path with
    | error e =>
      rw [v7fsLink]
      simp only [hold, hnew]
      exact ⟨hbase.toGrows, hsame⟩
    | ok place =>
      match place, hnew with
      | .inl k, hnew =>
        rw [v7fsLink]
        simp only [hold, hnew]
        exact ⟨hbase.toGrows, hsame⟩
      | .inr (d, n), hnew =>
        obtain ⟨ss, hss, hn⟩ := Fs.nameiCreate_inr hnew
        rcases wdir_cases host n i hss with hw | ⟨hroomy, hw⟩
        · rw [v7fsLink_of_room hold hnew hw]
          have hdated := dated_link hss hn i (now host fs.refresh)
          exact ⟨(hbase.toGrows.enter hss hn (now host fs.refresh)).link i, fun _ ↦ hdated⟩
        · rw [v7fsLink_of_full hold hnew hw]
          exact ⟨(hbase.markGrown d).toGrows, fun h ↦ absurd h hroomy⟩

end Link

section Files

variable {host : Host} {base fs : Fs} {i : ℕ} {path : Text} {t : Time}

/-- The inode is a regular file. -/
def Fs.Regular (fs : Fs) (i : ℕ) : Prop := ∃ p data, fs.inodes.get? i = some p ∧ p.content = .regular data

theorem Fs.Regular.slots? (h : fs.Regular i) : fs.slots? i = none := by
  obtain ⟨p, data, hp, hc⟩ := h
  rw [Fs.slots?, hp, Option.bind_some, hc]
  rfl

/-- Other contents for a regular file. -/
theorem Extends.setData (h : Extends base fs) (hi : fs.Regular i) (data : List Byte) (t : Time) :
    Extends base (fs.modify i fun p ↦ { p with content := .regular data, mtime := t }) ∧
      Fs.Regular (fs.modify i fun p ↦ { p with content := .regular data, mtime := t }) i ∧
      ∀ j, (fs.modify i fun p ↦ { p with content := .regular data, mtime := t }).slots? j = fs.slots? j := by
  obtain ⟨p, old, hp, hc⟩ := hi
  have hslots : ∀ j, (fs.modify i fun p ↦ { p with content := .regular data, mtime := t }).slots? j =
      fs.slots? j := by
    intro j
    rw [Fs.slots?, Fs.get?_modify]
    split
    · rename_i hj
      subst hj
      rw [Fs.slots?, hp]
      simp only [Option.map_some, Option.bind_some, hc]
      rfl
    · rfl
  refine ⟨⟨h.toGrows.modify (fun hb ↦ ?_) (fun q hq _ ↦ ?_) fun _ _ _ ↦ rfl, fun hb hk hn ↦ ?_⟩, ?_, hslots⟩
  · rw [Fs.child, hslots]
    exact h.child hb
  · obtain rfl := Option.some.inj (hp.symm.trans hq)
    refine ⟨?_, ?_, fun _ ↦ rfl⟩
    · rw [Inode.isDirectory, Inode.isDirectory, hc]
      rfl
    · rw [hc]
      rfl
  · rw [Fs.child, hslots] at hb
    exact h.named hb hk hn
  · exact ⟨_, data, by rw [Fs.get?_modify, if_pos rfl, hp]; rfl, rfl⟩

theorem Dated.setData (h : Dated base fs) (hgrows : Grows base fs) (hi : fs.Regular i) (data : List Byte)
    (t : Time) : Dated base (fs.modify i fun p ↦ { p with content := .regular data, mtime := t }) := by
  obtain ⟨p, old, hp, hc⟩ := hi
  have hslots := ((Extends.refl fs).setData ⟨p, old, hp, hc⟩ data t).2.2
  intro j q q' hq hdir hq'
  rw [Fs.get?_modify] at hq'
  split at hq'
  · rename_i hj
    subst hj
    obtain ⟨q₁, hq₁, ha⟩ := hgrows.inode hq
    obtain rfl := Option.some.inj (hp.symm.trans hq₁)
    have hfile := ha.directory
    rw [Inode.isDirectory, hc, hdir] at hfile
    cases hfile
  · refine (h j q q' hq hdir hq').imp id ?_
    rintro ⟨n, k, hnone, hk⟩
    refine ⟨n, k, hnone, ?_⟩
    rw [Fs.child, hslots]
    exact hk

/-- An open file: what the call left, and the file that the path names. -/
structure Opened (base fs : Fs) (path : Text) (i : ℕ) : Prop where
  ext : Extends base fs
  dated : Dated base fs
  regular : fs.Regular i
  namei : fs.namei path = .ok i

/-- The path does not lead to the device of the disk. -/
def Fs.Spares (fs : Fs) (path : Text) : Prop :=
  ∀ i p, fs.namei path = .ok i → fs.inodes.get? i = some p → isDisk p.content = false

theorem v7fsOpen_spec (host : Host) {path : Text} (hdisk : fs.Spares path) (mode : ℕ) :
    Extends fs (v7fsOpen host fs path mode).1 ∧ (Roomy host → Dated fs (v7fsOpen host fs path mode).1) ∧
      ∀ i, (v7fsOpen host fs path mode).2 = .ok i → Opened fs (v7fsOpen host fs path mode).1 path i := by
  have hsame : Roomy host → Dated fs fs.refresh := fun _ ↦ Dated.of_eq fun _ ↦ rfl
  have hbase : Extends fs fs.refresh := (Extends.refl fs).refresh
  unfold v7fsOpen
  rcases List.eq_nil_or_concat (components path) with hnil | ⟨q, n, hqn⟩
  · have herror : fs.refresh.nameiCreate path = .error .enoent := by
      rw [Fs.nameiCreate, Fs.parentOf, hnil]
      rfl
    simp only [herror]
    exact ⟨hbase, hsame, nofun⟩
  · rw [List.concat_eq_append] at hqn
    rcases Fs.nameiCreate_cases fs.refresh hqn with ⟨e, he, -⟩ | ⟨k, hk, hnamei⟩ | ⟨d, ss, hd, hq, hss, hn⟩
    · simp only [he]
      exact ⟨hbase, hsame, nofun⟩
    · simp only [hk]
      cases hp : fs.refresh.inodes.get? k with
      | none => exact ⟨hbase, hsame, nofun⟩
      | some p =>
        cases hc : p.content with
        | directory ss =>
          simp only [Option.map_some, hc]
          exact ⟨hbase, hsame, nofun⟩
        | regular data =>
          simp only [Option.map_some, hc]
          obtain ⟨hext, hreg, hslots⟩ := hbase.setData ⟨p, data, hp, hc⟩ [] (now host fs.refresh)
          have hrefresh : Dated fs fs.refresh := Dated.of_eq fun _ ↦ rfl
          have hdated := hrefresh.setData hbase.toGrows ⟨p, data, hp, hc⟩ [] (now host fs.refresh)
          refine ⟨hext, fun _ ↦ hdated, fun i hi ↦ ?_⟩
          obtain rfl := Except.ok.inj hi
          exact ⟨hext, hdated, hreg, (Fs.namei_congr hslots path).trans hnamei⟩
        | special block rdev =>
          have hno : isDisk (.special block rdev) = false := hc ▸ hdisk k p ((Fs.namei_refresh fs path).symm.trans hnamei) hp
          simp only [Option.map_some, hc, hno]
          exact ⟨hbase, hsame, nofun⟩
    · simp only [hd]
      rcases maknode_cases host n (.regular []) (mode &&& 0o6777) hss hn (fun _ ↦ rfl) with
        ⟨i, fs', hmk, hmaking, hcontent, -⟩ | ⟨hroomy, fs', e, hmk, hext⟩
      · rw [hmk]
        obtain ⟨p, hp, hpc, -⟩ := hcontent
        have hregular : ∀ q, fs'.inodes.get? i = some q → isDisk q.content = false := by
          intro q hq
          obtain rfl := Option.some.inj (hp.symm.trans hq)
          rw [hpc]
          rfl
        have hext := hbase.trans (hmaking.ext hregular)
        refine ⟨hext, fun _ ↦ hmaking.dated, fun k hk ↦ ?_⟩
        obtain rfl := Except.ok.inj hk
        exact ⟨hext, hmaking.dated, ⟨p, [], hp, hpc⟩, hmaking.namei hq hqn⟩
      · rw [hmk]
        exact ⟨hbase.trans (hext rfl), fun h ↦ absurd h hroomy, nofun⟩

theorem copyPieces_spec (host : Host) {base fs : Fs} (h : Opened base fs path i) (ps : List (List Byte)) :
    Opened base (copyPieces host fs i ps).1 path i := by
  induction ps generalizing fs with
  | nil => exact h
  | cons piece ps ih =>
    obtain ⟨p, old, hp, hc⟩ := h.regular
    have hwrite : Opened base (v7fsWrite host fs i piece).1 path i := by
      rw [v7fsWrite]
      simp only [Fs.inodes_refresh, hp, Option.map_some, hc]
      obtain ⟨hext, hreg, hslots⟩ := h.ext.refresh.setData ⟨p, old, hp, hc⟩
        (old ++ piece.take (host.dataRoom fs.refresh i piece)) (now host fs.refresh)
      have hrefresh : Dated base fs.refresh := h.dated
      have hdated := hrefresh.setData h.ext.refresh.toGrows ⟨p, old, hp, hc⟩
        (old ++ piece.take (host.dataRoom fs.refresh i piece)) (now host fs.refresh)
      exact ⟨hext, hdated, hreg,
        (Fs.namei_congr hslots path).trans ((Fs.namei_refresh fs path).trans h.namei)⟩
    rw [copyPieces]
    split
    · exact hwrite
    · exact ih hwrite

theorem copyFile_spec (host : Host) {path : Text} (hdisk : fs.Spares path) (source : Text) (mode : ℕ) :
    Extends fs (copyFile host fs source path mode).1 ∧
      (Roomy host → Dated fs (copyFile host fs source path mode).1) ∧
      ((copyFile host fs source path mode).2 = none →
        ∃ i, Opened fs (copyFile host fs source path mode).1 path i) := by
  unfold copyFile
  split
  · exact ⟨Extends.refl fs, fun _ ↦ Dated.of_eq fun _ ↦ rfl, nofun⟩
  · rename_i data _
    obtain ⟨hext, hdated, hopen⟩ := v7fsOpen_spec host hdisk (mode &&& 0o7777)
    dsimp only
    split
    · exact ⟨hext, hdated, nofun⟩
    · rename_i i hi
      have hcopied := copyPieces_spec host (hopen i hi) (pieces 65536 data)
      exact ⟨hcopied.ext, fun _ ↦ hcopied.dated, fun _ ↦ ⟨i, hcopied⟩⟩

end Files

end S8000.Restore.V7
