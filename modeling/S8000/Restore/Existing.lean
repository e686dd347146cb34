import S8000.Restore.Growth

namespace S8000.Restore

open Foundation Foundation.Bytes Foundation.Namespace V7
open Dump (Text)

section Metadata

variable {base fs fs' : Fs} {host : Host} {e : Entry} {st : Replay}

theorem V7.Extends.congr (h : Extends base fs) (hget : ∀ j, fs'.inodes.get? j = fs.inodes.get? j) :
    Extends base fs' := by
  have hchild : ∀ i n, fs'.child i n = fs.child i n := fun i n ↦ by
    rw [Fs.child, Fs.slots?, hget, Fs.child, Fs.slots?]
  refine ⟨⟨fun hc ↦ ?_, fun hp ↦ ?_, fun hp hi ↦ ?_⟩, fun hc hk hn ↦ ?_⟩
  · rw [hchild]
    exact h.child hc
  · simp only [hget]
    exact h.inode hp
  · rw [hget] at hp
    exact h.fresh hp hi
  · rw [hchild] at hc
    exact h.named hc hk hn

/-- `set_metadata` on what was not there before, or on a file. -/
theorem V7.Extends.setMetadata (h : Extends base st.fs)
    (hplace : ∀ i, st.fs.namei e.path = .ok i → i ∉ base.inodes ∨ st.fs.slots? i = none) :
    Extends base (setMetadata host e st).fs := by
  cases hi : st.fs.namei e.path with
  | error x => exact h.congr fun j ↦ by rw [(setMetadata_of_error hi).1]
  | ok i =>
    have hstamp : Extends base (st.fs.modify i (e.stamp host)) := by
      refine h.modify (fun _ ↦ rfl) fun p hp hb hdir ↦ ?_
      rcases hplace i hi with hi | hi
      · exact absurd hb hi
      · rw [Fs.slots?, hp, Option.bind_some] at hi
        rw [Inode.isDirectory, hi] at hdir
        cases hdir
    exact hstamp.congr fun j ↦ by rw [(setMetadata_of_ok hi).1, Fs.get?_modify]

theorem V7.Dated.setMetadata (h : Dated base st.fs) (hgrows : Grows base st.fs)
    (hplace : ∀ i, st.fs.namei e.path = .ok i → i ∉ base.inodes ∨ st.fs.slots? i = none) :
    Dated base (setMetadata host e st).fs := by
  intro i p p' hp hdir hp'
  have hsame : st.fs.inodes.get? i = some p' := by
    cases hk : st.fs.namei e.path with
    | error x => rwa [(setMetadata_of_error hk).1] at hp'
    | ok k =>
      rw [(setMetadata_of_ok hk).1] at hp'
      split at hp'
      · rename_i hki
        subst hki
        obtain ⟨q, hq, ha⟩ := hgrows.inode hp
        rcases hplace k hk with hfresh | hfile
        · exact absurd (Dict.mem_iff_get?_eq_some.mpr ⟨p, hp⟩) hfresh
        · have hkind := ha.directory
          rw [Fs.slots?, hq, Option.bind_some] at hfile
          rw [Inode.isDirectory, hfile, hdir] at hkind
          cases hkind
      · exact hp'
  refine (h i p p' hp hdir hsame).imp id ?_
  rintro ⟨n, k, hnone, hk⟩
  refine ⟨n, k, hnone, ?_⟩
  rw [Fs.child, slots?_setMetadata]
  exact hk

theorem V7.Fs.Sound.setMetadata (h : st.fs.Sound) : (setMetadata host e st).fs.Sound := by
  intro i n k hc
  rw [Fs.child, slots?_setMetadata] at hc
  have hk := h i n k hc
  cases hi : st.fs.namei e.path with
  | error x => rwa [(setMetadata_of_error hi).1]
  | ok j =>
    rw [Dict.mem_def, (setMetadata_of_ok hi).1]
    rw [Dict.mem_def] at hk
    split
    · simpa using hk
    · exact hk

theorem namei_setMetadata (path : Text) : (setMetadata host e st).fs.namei path = st.fs.namei path :=
  Fs.namei_congr (fun _ ↦ slots?_setMetadata _) path

end Metadata

section Steps

variable {host : Host} {st : Replay} {e : Entry}

/-- A `d` entry of a path below the root, with the names of its path. -/
structure DirectoryEntry (e : Entry) (q : List Text) (n : Text) : Prop where
  kind : e.kind = 'd'
  path : MkdirPath e.path q n
  down : ['.', '.'] ∉ q ++ [n]

theorem step_directory (host : Host) (st : Replay) {q : List Text} {n : Text} (he : DirectoryEntry e q n) :
    Extends st.fs (step host st e).fs ∧ (Roomy host → Dated st.fs (step host st e).fs) ∧
      (Roomy host → st.fs.Sound → (step host st e).fs.Sound ∧
        ((step host st e).fs.namei e.path ≠ .error .enoent ∨ st.fs.walk rootIno q = .error .enoent)) := by
  have hpath : e.path ≠ ['/'] := by
    intro h
    have hcomp := he.path.self
    rw [h] at hcomp
    exact absurd hcomp.symm (List.append_ne_nil_of_right_ne_nil _ (List.cons_ne_nil _ _))
  have hperform : perform host st.fs e = v7fsMkdir host st.fs e.path 0o700 := by
    rw [perform, he.kind]
    exact if_neg hpath
  obtain ⟨hext, hmade, hroomy, hdated⟩ := v7fsMkdir_spec host st.fs he.path 0o700
  unfold step
  dsimp only
  rw [hperform]
  split
  · rename_i hok
    obtain ⟨i, hi, hnamei⟩ := hmade hok.2.2
    have hplace : ∀ k, (v7fsMkdir host st.fs e.path 0o700).1.namei e.path = .ok k →
        k ∉ st.fs.inodes ∨ (v7fsMkdir host st.fs e.path 0o700).1.slots? k = none := by
      intro k hk
      rw [hnamei] at hk
      exact .inl (Except.ok.inj hk ▸ hi)
    refine ⟨Extends.setMetadata hext hplace, fun hr ↦ Dated.setMetadata (hdated hr) hext.toGrows hplace,
      fun hr hs ↦ ⟨(hroomy hr hs).1.setMetadata, ?_⟩⟩
    rw [namei_setMetadata]
    exact (hroomy hr hs).2
  · exact ⟨hext, hdated, hroomy⟩

theorem step_file (host : Host) (he : e.kind = 'f') (hdisk : st.fs.Spares e.path) :
    Extends st.fs (step host st e).fs ∧ (Roomy host → Dated st.fs (step host st e).fs) := by
  have hperform : perform host st.fs e = copyFile host st.fs e.aux e.path e.mode.toNat := by
    rw [perform, he]
    rfl
  obtain ⟨hext, hdated, hcopied⟩ := copyFile_spec host hdisk e.aux e.mode.toNat
  unfold step
  dsimp only
  rw [hperform]
  split
  · rename_i hok
    obtain ⟨i, hi⟩ := hcopied hok.2.2
    have hplace : ∀ k, (copyFile host st.fs e.aux e.path e.mode.toNat).1.namei e.path = .ok k →
        k ∉ st.fs.inodes ∨ (copyFile host st.fs e.aux e.path e.mode.toNat).1.slots? k = none := by
      intro k hk
      rw [hi.namei] at hk
      exact .inr (Except.ok.inj hk ▸ hi.regular.slots?)
    exact ⟨Extends.setMetadata hext hplace, fun hr ↦ Dated.setMetadata (hdated hr) hext.toGrows hplace⟩
  · exact ⟨hext, hdated⟩

theorem step_link (host : Host) (st : Replay) (he : e.kind = 'h') :
    Grows st.fs (step host st e).fs ∧ (Roomy host → Dated st.fs (step host st e).fs) := by
  have hperform : perform host st.fs e = v7fsLink host st.fs e.aux e.path := by
    rw [perform, he]
    rfl
  unfold step
  dsimp only
  rw [hperform, if_neg fun h ↦ h.1 he]
  exact v7fsLink_spec host st.fs e.aux e.path

end Steps

section FirstPass

variable {host : Host} {fs fs' : Fs}

/-- Every entry leads to an inode, and there is a root. -/
structure V7.Fs.Consistent (fs : Fs) : Prop where
  root : rootIno ∈ fs.inodes
  sound : fs.Sound

theorem V7.Grows.walk_of_ok (h : Grows fs fs') {i k : ℕ} {p : List Text} (hk : fs.walk i p = .ok k) :
    fs'.walk i p = .ok k :=
  Fs.walk_eq_ok.mpr (resolve_mono (fun _ _ _ ↦ h.child) (Fs.walk_eq_ok.mp hk))

/-- A path that stops at a file goes on stopping there. -/
theorem V7.Grows.walk_of_enotdir (h : Grows fs fs') (hs : fs.Sound) {i : ℕ} (hi : i ∈ fs.inodes)
    {p : List Text} (hp : fs.walk i p = .error .enotdir) : fs'.walk i p = .error .enotdir := by
  induction p generalizing i with
  | nil => cases hp
  | cons n p ih =>
    cases hn : fs.child i n with
    | some k =>
      rw [Fs.walk_cons_of_child hn] at hp
      rw [Fs.walk_cons_of_child (h.child hn)]
      exact ih (hs i n k hn) hp
    | none =>
      cases hss : fs.slots? i with
      | some ss =>
        rw [Fs.walk_cons_of_missing hss hn] at hp
        cases hp
      | none =>
        obtain ⟨q, hq⟩ := Dict.mem_iff_get?_eq_some.mp hi
        obtain ⟨q', hq', ha⟩ := h.inode hq
        rw [Fs.slots?, hq, Option.bind_some] at hss
        have hdir : q'.content.slots? = none := by
          have hkind := ha.directory
          rw [Inode.isDirectory, Inode.isDirectory, hss] at hkind
          exact Option.not_isSome_iff_eq_none.mp (Bool.eq_false_iff.mp hkind)
        exact Fs.walk_cons_of_file (by rw [Fs.slots?, hq', Option.bind_some, hdir])

theorem V7.Fs.walk_error {i : ℕ} {p : List Text} {x : Errno} (h : fs.walk i p = .error x) :
    x = .enoent ∨ x = .enotdir := by
  induction p generalizing i with
  | nil => cases h
  | cons n p ih =>
    cases hn : fs.child i n with
    | some k =>
      rw [Fs.walk_cons_of_child hn] at h
      exact ih h
    | none =>
      cases hss : fs.slots? i with
      | some ss =>
        rw [Fs.walk_cons_of_missing hss hn] at h
        exact .inl (Except.error.inj h).symm
      | none =>
        rw [Fs.walk_cons_of_file hss] at h
        exact .inr (Except.error.inj h).symm

/-- A path that names something, or is cut short by a file, stays as it is. -/
theorem V7.Grows.walk_of_settled (h : Grows fs fs') (hc : fs.Consistent) {p : List Text}
    (hp : fs.walk rootIno p ≠ .error .enoent) : fs'.walk rootIno p = fs.walk rootIno p := by
  cases hk : fs.walk rootIno p with
  | ok k => exact h.walk_of_ok hk
  | error x =>
    rcases Fs.walk_error hk with rfl | rfl
    · exact absurd hk hp
    · exact h.walk_of_enotdir hc.sound hc.root hk

/-- Every directory comes after its parents. -/
def ParentsFirst (ds : List Entry) : Prop :=
  ∀ l e, l ++ [e] <+: ds → ∀ q n, components e.path = q ++ [n] → q ≠ [] → ∃ e' ∈ l, components e'.path = q

theorem run_directories (host : Host) {ds : List Entry} (hds : ∀ e ∈ ds, ∃ q n, DirectoryEntry e q n)
    (st : Replay) : Extends st.fs (ds.foldl (step host) st).fs ∧
      (Roomy host → Dated st.fs (ds.foldl (step host) st).fs) := by
  induction ds generalizing st with
  | nil => exact ⟨Extends.refl st.fs, fun _ ↦ Dated.of_eq fun _ ↦ rfl⟩
  | cons e ds ih =>
    obtain ⟨q, n, he⟩ := hds e List.mem_cons_self
    obtain ⟨hext, hdated, -⟩ := step_directory host st he
    obtain ⟨hext', hdated'⟩ := ih (fun e he ↦ hds e (List.mem_cons_of_mem _ he)) (step host st e)
    exact ⟨hext.trans hext', fun hr ↦ Dated.trans hext.toGrows (hdated hr) hext'.toGrows (hdated' hr)⟩

/-- With room for all of them, every directory is made or cannot be. -/
theorem run_settled (hroomy : Roomy host) (st : Replay) (hc : st.fs.Consistent) {ds : List Entry}
    (hds : ∀ e ∈ ds, ∃ q n, DirectoryEntry e q n) (horder : ParentsFirst ds) :
    (ds.foldl (step host) st).fs.Consistent ∧
      ∀ e ∈ ds, (ds.foldl (step host) st).fs.namei e.path ≠ .error .enoent := by
  induction ds using List.reverseRecOn with
  | nil => exact ⟨hc, fun e he ↦ absurd he List.not_mem_nil⟩
  | append_singleton l e ih =>
    have hl : ∀ e ∈ l, ∃ q n, DirectoryEntry e q n := fun e he ↦ hds e (List.mem_append_left _ he)
    obtain ⟨hcl, hsettled⟩ := ih hl fun l' e' hpre ↦ horder l' e' (hpre.trans (List.prefix_append l [e]))
    obtain ⟨q, n, he⟩ := hds e (List.mem_append_right _ (List.mem_singleton_self e))
    rw [List.foldl_append, List.foldl_cons, List.foldl_nil]
    obtain ⟨hext, -, hmade⟩ := step_directory host (l.foldl (step host) st) he
    obtain ⟨hsound, hthis⟩ := hmade hroomy hcl.sound
    refine ⟨⟨hext.mem hcl.root, hsound⟩, fun e' he' ↦ ?_⟩
    rcases List.mem_append.mp he' with he' | he'
    · rw [Fs.namei, hext.toGrows.walk_of_settled hcl (hsettled e' he')]
      exact hsettled e' he'
    · obtain rfl := List.mem_singleton.mp he'
      refine hthis.resolve_right fun hq ↦ ?_
      by_cases hnil : q = []
      · rw [hnil] at hq
        cases hq
      · obtain ⟨e₀, he₀, hpath⟩ := horder l e' (List.prefix_refl _) q n he.path.self hnil
        exact hsettled e₀ he₀ (by rw [Fs.namei, hpath, hq])

/-- A path without `..` that leads to an old inode did so before. -/
theorem V7.Extends.namei_reflect (h : Extends fs fs') {path : Text} (hdown : ['.', '.'] ∉ components path)
    {i : ℕ} (hi : fs'.namei path = .ok i) (hold : i ∈ fs.inodes) : fs.namei path = .ok i := by
  have hnew : ∀ j m k, m ∈ components path → fs'.child j m = some k → k ∈ fs.inodes → fs.child j m = some k :=
    fun j m k hm hc hk ↦ h.named hc hk fun hdots ↦ hdown (hdots ▸ hm)
  exact Fs.walk_eq_ok.mpr (resolve_reflect hnew (fun _ _ _ hc ↦ Fs.mem_of_child hc)
    (Fs.walk_eq_ok.mp hi) hold)

theorem V7.Extends.spares (h : Extends fs fs') {path : Text} (hdown : ['.', '.'] ∉ components path)
    (hs : fs.Spares path) : fs'.Spares path := by
  intro i p' hi hp'
  by_cases hold : i ∈ fs.inodes
  · obtain ⟨p, hp⟩ := Dict.mem_iff_get?_eq_some.mp hold
    obtain ⟨q, hq, ha⟩ := h.inode hp
    obtain rfl := Option.some.inj (hq.symm.trans hp')
    exact ha.disk.trans (hs i p (h.namei_reflect hdown hi hold) hp)
  · exact h.fresh hp' hold

theorem V7.NoDisk.spares (h : NoDisk fs) (path : Text) : fs.Spares path := fun i p _ hp ↦ h i p hp

/-- No `f` entry leads to the device of the disk, nor could after a link. -/
def Spared (fs : Fs) (es : List Entry) : Prop :=
  ∀ l e, l ++ [e] <+: es → e.kind = 'f' → fs.Spares e.path ∧ (NoDisk fs ∨ ∀ e' ∈ l, e'.kind ≠ 'h')

theorem run_members (host : Host) {es : List Entry} (hes : ∀ e ∈ es, e.kind = 'f' ∨ e.kind = 'h')
    (hdown : ∀ e ∈ es, ['.', '.'] ∉ components e.path) {st : Replay} (hbase : Extends fs st.fs)
    (hspared : Spared fs es) :
    Grows st.fs (es.foldl (step host) st).fs ∧
      (Roomy host → Dated st.fs (es.foldl (step host) st).fs) ∧
      ((∀ e ∈ es, e.kind ≠ 'h') → Extends st.fs (es.foldl (step host) st).fs) := by
  induction es using List.reverseRecOn with
  | nil => exact ⟨Grows.refl st.fs, fun _ ↦ Dated.of_eq fun _ ↦ rfl, fun _ ↦ Extends.refl st.fs⟩
  | append_singleton l e ih =>
    obtain ⟨hgrows, hdated, hext⟩ := ih (fun e he ↦ hes e (List.mem_append_left _ he))
      (fun e he ↦ hdown e (List.mem_append_left _ he))
      fun l' e' hpre ↦ hspared l' e' (hpre.trans (List.prefix_append l [e]))
    have he : e ∈ l ++ [e] := List.mem_append_right _ (List.mem_singleton_self e)
    rw [List.foldl_append, List.foldl_cons, List.foldl_nil]
    rcases hes e he with hf | hh
    · have hspares : (l.foldl (step host) st).fs.Spares e.path := by
        obtain ⟨hpath, hdisk | hlinks⟩ := hspared l e (List.prefix_refl _) hf
        · exact (hdisk.grows (hbase.toGrows.trans hgrows)).spares e.path
        · exact (hbase.trans (hext hlinks)).spares (hdown e he) hpath
      obtain ⟨hext', hdated'⟩ := step_file host hf hspares
      exact ⟨hgrows.trans hext'.toGrows, fun hr ↦ Dated.trans hgrows (hdated hr) hext'.toGrows (hdated' hr),
        fun hlinks ↦ (hext fun e he ↦ hlinks e (List.mem_append_left _ he)).trans hext'⟩
    · obtain ⟨hgrows', hdated'⟩ := step_link host (l.foldl (step host) st) hh
      exact ⟨hgrows.trans hgrows', fun hr ↦ Dated.trans hgrows (hdated hr) hgrows' (hdated' hr),
        fun hlinks ↦ absurd hh (hlinks e he)⟩

end FirstPass

section SecondPass

/-- The metadata that the manifest gives to an inode. -/
def V7.Inode.metadata (p : Inode) : (ℕ × Word × Word × Time) × Time := (p.attributes, p.mtime)

variable {host : Host} {metadata : (ℕ × Word × Word × Time) × Time}

theorem namei_resetDirectory (st : Replay) (e : Entry) (path : Text) :
    (resetDirectory host st e).fs.namei path = st.fs.namei path := by
  unfold resetDirectory
  split
  · exact namei_setMetadata path
  · rfl

theorem slots?_resetDirectories (es : List Entry) (st : Replay) (i : ℕ) :
    (es.foldl (resetDirectory host) st).fs.slots? i = st.fs.slots? i := by
  induction es generalizing st with
  | nil => rfl
  | cons e es ih =>
    rw [List.foldl_cons, ih]
    unfold resetDirectory
    split
    · exact slots?_setMetadata i
    · rfl

/-- The second loop gives the metadata of the manifest to the directories that it names, and
leaves the others alone. -/
theorem resetDirectories {es : List Entry}
    (hes : ∀ e ∈ es, e.kind = 'd' → ∀ p, (e.stamp host p).metadata = metadata) (st : Replay)
    {i : ℕ} {p : Inode} (hp : st.fs.inodes.get? i = some p) :
    ∃ p', (es.foldl (resetDirectory host) st).fs.inodes.get? i = some p' ∧ p'.content = p.content ∧
      ((∃ e ∈ es, e.kind = 'd' ∧ st.fs.namei e.path = .ok i) → p'.metadata = metadata) ∧
      ((¬ ∃ e ∈ es, e.kind = 'd' ∧ st.fs.namei e.path = .ok i) → p' = p) := by
  induction es generalizing st p with
  | nil =>
    refine ⟨p, hp, rfl, ?_, fun _ ↦ rfl⟩
    rintro ⟨e, he, -⟩
    cases he
  | cons e es ih =>
    have htail : ∀ e ∈ es, e.kind = 'd' → ∀ p, (e.stamp host p).metadata = metadata :=
      fun e he ↦ hes e (List.mem_cons_of_mem _ he)
    rw [List.foldl_cons]
    by_cases hhit : e.kind = 'd' ∧ st.fs.namei e.path = .ok i
    · have hstamp : (resetDirectory host st e).fs.inodes.get? i = some (e.stamp host p) := by
        rw [resetDirectory, if_pos hhit.1, (setMetadata_of_ok hhit.2).1, if_pos rfl, hp]
        rfl
      obtain ⟨p', hp', hc, hin, hout⟩ := ih htail _ hstamp
      refine ⟨p', hp', hc, fun _ ↦ ?_, fun h ↦ absurd ⟨e, List.mem_cons_self, hhit⟩ h⟩
      by_cases hmore : ∃ e' ∈ es, e'.kind = 'd' ∧ (resetDirectory host st e).fs.namei e'.path = .ok i
      · exact hin hmore
      · rw [hout hmore]
        exact hes e List.mem_cons_self hhit.1 p
    · have hsame : (resetDirectory host st e).fs.inodes.get? i = some p := by
        unfold resetDirectory
        split
        · rename_i hd
          cases hk : st.fs.namei e.path with
          | error x => rwa [(setMetadata_of_error hk).1]
          | ok k => rwa [(setMetadata_of_ok hk).1, if_neg fun h : k = i ↦ hhit ⟨hd, h ▸ hk⟩]
        · exact hp
      obtain ⟨p', hp', hc, hin, hout⟩ := ih htail _ hsame
      have hiff : (∃ e' ∈ e :: es, e'.kind = 'd' ∧ st.fs.namei e'.path = .ok i) ↔
          ∃ e' ∈ es, e'.kind = 'd' ∧ (resetDirectory host st e).fs.namei e'.path = .ok i := by
        simp only [List.mem_cons, exists_eq_or_imp, namei_resetDirectory]
        exact or_iff_right hhit
      exact ⟨p', hp', hc, fun h ↦ hin (hiff.mp h), fun h ↦ hout (hiff.not.mp h)⟩

end SecondPass

section Replay

/-- The entries of a manifest that first makes directories, all with the same metadata, and
then installs files and links. -/
structure InstallEntries (ds members : List Entry) (metadata : (ℕ × Word × Word × Time) × Time) : Prop where
  directories : ∀ e ∈ ds, ∃ q n, DirectoryEntry e q n
  order : ParentsFirst ds
  stamp : ∀ host, ∀ e ∈ ds, ∀ p, (e.stamp host p).metadata = metadata
  kinds : ∀ e ∈ members, e.kind = 'f' ∨ e.kind = 'h'
  down : ∀ e ∈ members, ['.', '.'] ∉ components e.path

/-- Every directory is still there with its mode, its owner and its access time, and with its
modification time unless it has new entries. -/
def Kept (fs fs' : Fs) : Prop :=
  ∀ i p, fs.inodes.get? i = some p → p.isDirectory →
    ∃ p', fs'.inodes.get? i = some p' ∧ p'.isDirectory ∧ p'.attributes = p.attributes ∧
      (p'.mtime = p.mtime ∨ Gains fs fs' i)

/-- Every directory that a `d` entry names has the metadata already. -/
def Agrees (fs : Fs) (ds : List Entry) (metadata : (ℕ × Word × Word × Time) × Time) : Prop :=
  ∀ e ∈ ds, e.kind = 'd' → ∀ i p, fs.namei e.path = .ok i → fs.inodes.get? i = some p → p.isDirectory →
    p.metadata = metadata

variable {host : Host} {fs : Fs} {ds members : List Entry} {metadata : (ℕ × Word × Word × Time) × Time}

theorem InstallEntries.not_directory (h : InstallEntries ds members metadata) {e : Entry} (he : e ∈ members) :
    e.kind ≠ 'd' := by
  intro hd
  rcases h.kinds e he with hf | hf <;> rw [hd] at hf <;> exact absurd hf (by decide)

theorem Spared.of_append (hs : Spared fs (ds ++ members)) : Spared fs members := by
  intro l e hpre hf
  obtain ⟨hpath, hdisk⟩ := hs (ds ++ l) e (by
    rw [List.append_assoc]
    exact (List.prefix_append_right_inj ds).mpr hpre) hf
  exact ⟨hpath, hdisk.imp id fun hl e' he' ↦ hl e' (List.mem_append_right _ he')⟩

/-- The first pass, and what the paths of the directories name after it. -/
theorem InstallEntries.firstPass (host : Host) (h : InstallEntries ds members metadata)
    (hs : Spared fs (ds ++ members)) :
    Grows fs ((ds ++ members).foldl (step host) ⟨fs, 0⟩).fs ∧
      (Roomy host → Dated fs ((ds ++ members).foldl (step host) ⟨fs, 0⟩).fs) ∧
      (Roomy host → fs.Consistent →
        ∀ e ∈ ds, ∀ i, ((ds ++ members).foldl (step host) ⟨fs, 0⟩).fs.namei e.path = .ok i →
          i ∈ fs.inodes → fs.namei e.path = .ok i) := by
  obtain ⟨hds, hdated⟩ := run_directories host h.directories ⟨fs, 0⟩
  obtain ⟨hmembers, hdated', -⟩ := run_members host h.kinds h.down hds hs.of_append
  rw [List.foldl_append]
  refine ⟨hds.toGrows.trans hmembers, fun hr ↦ Dated.trans hds.toGrows (hdated hr) hmembers (hdated' hr),
    fun hroomy hc e he i hi hold ↦ ?_⟩
  obtain ⟨q, n, hentry⟩ := h.directories e he
  -- links may lead anywhere, but no path of a directory was left for them
  obtain ⟨hc', hsettled⟩ := run_settled hroomy ⟨fs, 0⟩ hc h.directories h.order
  rw [Fs.namei, hmembers.walk_of_settled hc' (hsettled e he)] at hi
  exact hds.namei_reflect (hentry.path.self ▸ hentry.down) hi hold

/-- The directories of the file system after both passes. -/
theorem InstallEntries.secondPass (host : Host) (h : InstallEntries ds members metadata)
    (hs : Spared fs (ds ++ members)) {i : ℕ} {p : Inode} (hp : fs.inodes.get? i = some p) (hdir : p.isDirectory) :
    ∃ p', (replay host fs (ds ++ members)).fs.inodes.get? i = some p' ∧ p'.isDirectory ∧
      ((∃ e ∈ ds, ((ds ++ members).foldl (step host) ⟨fs, 0⟩).fs.namei e.path = .ok i) →
        p'.metadata = metadata) ∧
      ((¬ ∃ e ∈ ds, ((ds ++ members).foldl (step host) ⟨fs, 0⟩).fs.namei e.path = .ok i) →
        p'.attributes = p.attributes ∧
          (Roomy host → p'.mtime = p.mtime ∨ Gains fs (replay host fs (ds ++ members)).fs i)) := by
  obtain ⟨hgrows, hdated, -⟩ := h.firstPass host hs
  obtain ⟨p₁, hp₁, ha⟩ := hgrows.inode hp
  have hstamp : ∀ e ∈ (ds ++ members).reverse, e.kind = 'd' → ∀ p, (e.stamp host p).metadata = metadata := by
    intro e he hd
    rcases List.mem_append.mp (List.mem_reverse.mp he) with he | he
    · exact h.stamp host e he
    · exact absurd hd (h.not_directory he)
  obtain ⟨p', hp', hc, hin, hout⟩ := resetDirectories hstamp _ hp₁
  have hiff : (∃ e ∈ (ds ++ members).reverse, e.kind = 'd' ∧
      ((ds ++ members).foldl (step host) ⟨fs, 0⟩).fs.namei e.path = .ok i) ↔
      ∃ e ∈ ds, ((ds ++ members).foldl (step host) ⟨fs, 0⟩).fs.namei e.path = .ok i := by
    constructor
    · rintro ⟨e, he, hd, hi⟩
      rcases List.mem_append.mp (List.mem_reverse.mp he) with he | he
      · exact ⟨e, he, hi⟩
      · exact absurd hd (h.not_directory he)
    · rintro ⟨e, he, hi⟩
      obtain ⟨q, n, hentry⟩ := h.directories e he
      exact ⟨e, List.mem_reverse.mpr (List.mem_append_left _ he), hentry.kind, hi⟩
  refine ⟨p', hp', ?_, fun hhit ↦ hin (hiff.mpr hhit), fun hmiss ↦ ?_⟩
  · rw [Inode.isDirectory, hc]
    exact ha.directory.trans hdir
  · obtain rfl := hout (hiff.not.mpr hmiss)
    refine ⟨ha.attributes hdir, fun hr ↦ (hdated hr i p p' hp hdir hp₁).imp id ?_⟩
    rintro ⟨n, k, hnone, hk⟩
    refine ⟨n, k, hnone, ?_⟩
    rw [Fs.child, replay, slots?_resetDirectories]
    exact hk

/-- Directories that were there are kept when those that the manifest names have its metadata. -/
theorem InstallEntries.kept_of_agrees (h : InstallEntries ds members metadata) (hs : Spared fs (ds ++ members))
    (hroomy : Roomy host) (hc : fs.Consistent) (ha : Agrees fs ds metadata) :
    Kept fs (replay host fs (ds ++ members)).fs := by
  intro i p hp hdir
  obtain ⟨p', hp', hdir', hin, hout⟩ := h.secondPass host hs hp hdir
  refine ⟨p', hp', hdir', ?_⟩
  by_cases hhit : ∃ e ∈ ds, ((ds ++ members).foldl (step host) ⟨fs, 0⟩).fs.namei e.path = .ok i
  · obtain ⟨e, he, hi⟩ := hhit
    obtain ⟨q, n, hentry⟩ := h.directories e he
    have hbefore := (h.firstPass host hs).2.2 hroomy hc e he i hi (Dict.mem_iff_get?_eq_some.mpr ⟨p, hp⟩)
    have hsame : p'.metadata = p.metadata :=
      (hin ⟨e, he, hi⟩).trans (ha e he hentry.kind i p hbefore hp hdir).symm
    exact ⟨congrArg Prod.fst hsame, .inl (congrArg Prod.snd hsame)⟩
  · exact ⟨(hout hhit).1, (hout hhit).2 hroomy⟩

/-- And only then, but for the modification times of those that have new entries. -/
theorem InstallEntries.agrees_of_kept (h : InstallEntries ds members metadata) (hs : Spared fs (ds ++ members))
    (hk : Kept fs (replay host fs (ds ++ members)).fs) {e : Entry} (he : e ∈ ds) {i : ℕ} {p : Inode}
    (hi : fs.namei e.path = .ok i) (hp : fs.inodes.get? i = some p) (hdir : p.isDirectory) :
    p.attributes = metadata.1 ∧ (p.mtime = metadata.2 ∨ Gains fs (replay host fs (ds ++ members)).fs i) := by
  obtain ⟨p', hp', -, hin, -⟩ := h.secondPass host hs hp hdir
  obtain ⟨p'', hp'', -, hattr, hmtime⟩ := hk i p hp hdir
  obtain rfl := Option.some.inj (hp'.symm.trans hp'')
  have hmetadata : p'.metadata = metadata := hin ⟨e, he, (h.firstPass host hs).1.walk_of_ok hi⟩
  rw [← hmetadata]
  exact ⟨hattr.symm, hmtime.imp Eq.symm id⟩

end Replay

end S8000.Restore
