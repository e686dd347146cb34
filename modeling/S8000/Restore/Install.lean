import S8000.Restore.Existing
import S8000.Restore.Files
import S8000.Restore.Names
import Mathlib.Data.List.Dedup
import Mathlib.Algebra.Order.BigOperators.Group.List

namespace S8000.Restore

open Foundation Foundation.Bytes Foundation.Joining Foundation.Numerals Foundation.Traversal V7
open Dump (Text)

section Directories

/-- The `d` entry of an absolute path. -/
theorem directoryEntry_absolute {e : Entry} {ps : List Text} {p : Text} (hkind : e.kind = 'd')
    (hpath : e.path = Restore.encode (absolute (ps ++ [p]))) (h : ∀ q ∈ ps ++ [p], IsName q) :
    DirectoryEntry e ((ps.map Restore.encode).map (·.take 14)) ((Restore.encode p).take 14) := by
  have henc : ∀ q ∈ ps.map Restore.encode, IsName q := by
    intro q hq
    obtain ⟨r, hr, rfl⟩ := List.mem_map.mp hq
    exact (h r (List.mem_append_left _ hr)).encode
  have hp := (h p (by simp)).encode
  have hfront : components (if ps.map Restore.encode = [] then [] else absolute (ps.map Restore.encode)) =
      (ps.map Restore.encode).map (·.take 14) := by
    split
    · rename_i hnil
      rw [hnil]
      rfl
    · exact components_absolute henc
  have hself : e.path = (if ps.map Restore.encode = [] then [] else absolute (ps.map Restore.encode)) ++
      '/' :: Restore.encode p := by
    rw [hpath, encode_absolute, List.map_append, List.map_cons, List.map_nil, absolute_concat]
  refine ⟨hkind, ?_, fun hm ↦ ?_⟩
  · rw [hself, ← hfront]
    exact mkdirPath hp.ne_nil hp.slash
  · rcases List.mem_append.mp hm with hm | hm
    · obtain ⟨q, hq, hdots⟩ := List.mem_map.mp hm
      exact take_ne_dotdot (henc q hq).dotdot hdots
    · exact take_ne_dotdot hp.dotdot (List.mem_singleton.mp hm).symm

theorem mem_climb {rs : List Text} {d : Text} :
    d ∈ climb rs ↔ ∃ l, l ≠ [] ∧ l <:+ rs ∧ d = absolute l.reverse := by
  induction rs with
  | nil =>
    simp only [climb, List.not_mem_nil, List.suffix_nil, false_iff]
    rintro ⟨l, hne, hl, -⟩
    exact hne hl
  | cons p rs ih =>
    rw [climb, List.mem_cons, ih]
    constructor
    · rintro (rfl | ⟨l, hne, hl, rfl⟩)
      · exact ⟨p :: rs, List.cons_ne_nil _ _, List.suffix_rfl, rfl⟩
      · exact ⟨l, hne, hl.trans (List.suffix_cons p rs), rfl⟩
    · rintro ⟨l, hne, hl, rfl⟩
      rcases List.suffix_cons_iff.mp hl with rfl | hl
      · exact .inl rfl
      · exact .inr ⟨l, hne, hl, rfl⟩

/-- The parents of a path are the paths of its proper beginnings. -/
theorem mem_parentDirectories {path d : Text} :
    d ∈ parentDirectories path ↔ ∃ ps, ps ≠ [] ∧ ps <+: (parts path).dropLast ∧ d = absolute ps := by
  rw [parentDirectories, mem_climb]
  have htail : (parts path).reverse.tail = (parts path).dropLast.reverse := by
    rw [List.tail_reverse]
  rw [htail]
  constructor
  · rintro ⟨l, hne, hl, rfl⟩
    exact ⟨l.reverse, by simpa using hne, by simpa using List.reverse_prefix.mpr hl, rfl⟩
  · rintro ⟨ps, hne, hps, rfl⟩
    exact ⟨ps.reverse, by simpa using hne, List.reverse_suffix.mpr hps, by rw [List.reverse_reverse]⟩

theorem mem_directoriesOf {paths : List Text} {d : Text} :
    d ∈ directoriesOf paths ↔ ∃ path ∈ paths, d ∈ parentDirectories path := by
  rw [directoriesOf, List.mem_insertionSort, List.mem_dedup, List.mem_flatMap]

instance : Std.Total pathLE := ⟨fun _ _ ↦ le_total _ _⟩

instance : IsTrans Text pathLE := ⟨fun _ _ _ ↦ le_trans⟩

theorem count_le_of_pathLE {p q : Text} (h : pathLE p q) : p.count '/' ≤ q.count '/' := by
  rcases Prod.Lex.toLex_le_toLex.mp h with h | h
  · exact h.le
  · exact h.1.le

theorem pairwise_directoriesOf (paths : List Text) :
    (directoriesOf paths).Pairwise fun p q ↦ p.count '/' ≤ q.count '/' :=
  (List.pairwise_insertionSort pathLE _).imp count_le_of_pathLE

/-- The components of the members are names. -/
def NamedPaths (paths : List Text) : Prop := ∀ path ∈ paths, ∀ p ∈ parts path, IsName p

theorem NamedPaths.directory {paths : List Text} (h : NamedPaths paths) {d : Text}
    (hd : d ∈ directoriesOf paths) :
    ∃ ps p, d = absolute (ps ++ [p]) ∧ (∀ q ∈ ps ++ [p], IsName q) ∧
      (ps ≠ [] → absolute ps ∈ directoriesOf paths) := by
  obtain ⟨path, hpath, hd⟩ := mem_directoriesOf.mp hd
  obtain ⟨qs, hne, hqs, rfl⟩ := mem_parentDirectories.mp hd
  obtain ⟨ps, p, rfl⟩ := (List.eq_nil_or_concat qs).resolve_left hne
  rw [List.concat_eq_append] at hqs ⊢
  refine ⟨ps, p, rfl, fun q hq ↦ h path hpath q ?_, fun hps ↦ ?_⟩
  · exact List.dropLast_subset _ (hqs.subset hq)
  · exact mem_directoriesOf.mpr ⟨path, hpath, mem_parentDirectories.mpr
      ⟨ps, hps, (List.prefix_append ps [p]).trans hqs, rfl⟩⟩

/-- What the `d` lines of a manifest ask for. -/
def directoryStamp (directoryTime : Time) : (ℕ × Word × Word × Time) × Time :=
  ((0o755, 0, 0, directoryTime), directoryTime)

/-- A time as the replay stores it. -/
def storedTime (t : ℤ) : Time := BitVec.ofInt 32 (strtoll 10 (decimal t))

theorem stamp_directoryLine (host : Host) (t : ℤ) (d : Text) (p : Inode) :
    ((directoryLine t d).entry.stamp host p).metadata = directoryStamp (storedTime t) := by
  have hid : ∀ old : Word, chownId host old (BitVec.ofNat 32 (strtoul 10 (decimal 0))) = 0 := by
    intro old
    have hzero : BitVec.ofNat 32 (strtoul 10 (decimal 0)) = 0 := by decide
    rw [hzero, chownId, if_neg (by decide), throughChar]
    split <;> decide
  have hmode : (BitVec.ofNat 32 ((directoryLine t d).metadata.mode &&& 0o7777)).toNat &&& 0o7777 = 0o755 := by
    show (BitVec.ofNat 32 ((Dump.ifdir ||| 0o755) &&& 0o7777)).toNat &&& 0o7777 = 0o755
    decide
  simp only [Entry.stamp, Inode.metadata, Inode.attributes, directoryStamp, Prod.mk.injEq]
  exact ⟨⟨hmode, hid p.uid, hid p.gid, rfl⟩, rfl⟩

theorem parentsFirst_directories {paths : List Text} (h : NamedPaths paths) (t : ℤ) :
    ParentsFirst ((directoriesOf paths).map fun d ↦ (directoryLine t d).entry) := by
  intro l e hpre q n hcomp hq
  obtain ⟨rest, hrest⟩ := hpre
  rw [List.append_assoc] at hrest
  obtain ⟨l₁, l₂, hsplit, rfl, htail⟩ := List.map_eq_append_iff.mp hrest.symm
  obtain ⟨d, l₃, rfl, rfl, -⟩ := List.map_eq_cons_iff.mp htail
  obtain ⟨ps, p, rfl, hnames, hparent⟩ := h.directory (d := d) (by rw [hsplit]; simp)
  have hentry := directoryEntry_absolute (e := (directoryLine t (absolute (ps ++ [p]))).entry) rfl rfl hnames
  obtain ⟨rfl, -⟩ := List.append_inj' (hentry.path.self.symm.trans hcomp) rfl
  have hps : ps ≠ [] := fun hnil ↦ hq (by rw [hnil]; rfl)
  have hps' : ∀ q ∈ ps, IsName q := fun q hq ↦ hnames q (List.mem_append_left _ hq)
  -- the parent has fewer slashes, so it is not behind
  have hbefore : absolute ps ∈ l₁ := by
    have hmem := hparent hps
    have hsorted := pairwise_directoriesOf paths
    rw [hsplit] at hmem hsorted
    rcases List.mem_append.mp hmem with hmem | hmem
    · exact hmem
    · have hle : (absolute (ps ++ [p])).count '/' ≤ (absolute ps).count '/' := by
        rcases List.mem_cons.mp hmem with heq | hmem
        · rw [heq]
        · exact List.rel_of_pairwise_cons (List.pairwise_append.mp hsorted).2.1 hmem
      rw [count_absolute (by simp) hnames, count_absolute hps hps', List.length_append] at hle
      simp at hle
  refine ⟨_, List.mem_map.mpr ⟨absolute ps, hbefore, rfl⟩, ?_⟩
  show components (encode (absolute ps)) = _
  rw [encode_absolute, components_absolute]
  intro q hq
  obtain ⟨r, hr, rfl⟩ := List.mem_map.mp hq
  exact (hps' r hr).encode

theorem installEntries {paths : List Text} (h : NamedPaths paths) (t : ℤ) {members : List Entry}
    (hkinds : ∀ e ∈ members, e.kind = 'f' ∨ e.kind = 'h')
    (hdown : ∀ e ∈ members, ['.', '.'] ∉ components e.path) :
    InstallEntries ((directoriesOf paths).map fun d ↦ (directoryLine t d).entry) members
      (directoryStamp (storedTime t)) where
  directories e he := by
    obtain ⟨d, hd, rfl⟩ := List.mem_map.mp he
    obtain ⟨ps, p, rfl, hnames, -⟩ := h.directory hd
    exact ⟨_, _, directoryEntry_absolute rfl rfl hnames⟩
  order := parentsFirst_directories h t
  stamp host e he p := by
    obtain ⟨d, -, rfl⟩ := List.mem_map.mp he
    exact stamp_directoryLine host t d p
  kinds := hkinds
  down := hdown

end Directories

section Parts

theorem mem_of_mem_parts {t p : Text} {c : Char} (hp : p ∈ parts t) (hc : c ∈ p) : c ∈ t := by
  have hjoin : ['/'].intercalate (t.splitOn '/') = t := List.intercalate_splitOn '/'
  rw [← hjoin]
  exact mem_intercalate_of_mem (List.mem_filter.mp hp).1 hc

theorem isName_of_mem_parts {t p : Text} (h : ['.', '.'] ∉ parts t) (hp : p ∈ parts t) : IsName p := by
  obtain ⟨hmem, hkept⟩ := List.mem_filter.mp hp
  obtain ⟨hne, hdot⟩ := of_decide_eq_true hkept
  refine ⟨hne, notMem_of_mem_splitOn hmem, ?_⟩
  rintro rfl
  exact h hp

theorem parts_slash (t : Text) : parts ('/' :: t) = parts t := by
  rw [parts, ← List.nil_append ('/' :: t), List.splitOn_append_cons_self]
  rfl

theorem splitOn_encode (t : Text) : (encode t).splitOn '/' = (t.splitOn '/').map encode := by
  have hjoin : ['/'].intercalate (t.splitOn '/') = t := List.intercalate_splitOn '/'
  have hencode : encode t = ['/'].intercalate ((t.splitOn '/').map encode) := by
    nth_rewrite 1 [← hjoin]
    exact encode_intercalate ['/'] _
  rw [hencode]
  refine List.splitOn_intercalate '/' (fun p hp ↦ ?_) (by simp [List.splitOn_ne_nil])
  obtain ⟨q, hq, rfl⟩ := List.mem_map.mp hp
  exact (mem_encode (by decide)).not.mpr (notMem_of_mem_splitOn hq)

/-- The kernel meets a `..` only where the writer saw it. -/
theorem dotdot_notMem_components {t : Text} (h : ['.', '.'] ∉ parts t) :
    ['.', '.'] ∉ components (encode t) := by
  intro hmem
  rw [components, splitOn_encode] at hmem
  obtain ⟨p, hp, htake⟩ := List.mem_map.mp hmem
  obtain ⟨q, hq, rfl⟩ := List.mem_map.mp (List.mem_filter.mp hp).1
  have hdots : encode q = ['.', '.'] := by
    by_contra hne
    exact take_ne_dotdot hne htake
  rw [eq_of_encode_eq hdots (ascii_of_all (by decide))] at hq
  exact h (List.mem_filter.mpr ⟨hq, by decide⟩)

/-- The path of a member that a writer accepts. -/
structure MemberPath (path : Text) : Prop where
  nul : '\x00' ∉ path
  dotdot : ['.', '.'] ∉ parts path

theorem memberPath {relative : Text} (hnul : '\x00' ∉ relative) (h : ¬ isUnsafe relative) :
    MemberPath ('/' :: relative) where
  nul := by
    rw [List.mem_cons, not_or]
    exact ⟨by decide, hnul⟩
  dotdot := by
    rw [parts_slash]
    exact fun hdots ↦ h (.inr (.inr hdots))

theorem nul_notMem_absolute {ps : List Text} (h : ∀ p ∈ ps, '\x00' ∉ p) : '\x00' ∉ absolute ps := by
  rw [absolute, List.mem_cons, not_or]
  refine ⟨by decide, fun hc ↦ ?_⟩
  rcases mem_of_mem_intercalate hc with hc | ⟨p, hp, hc⟩
  · exact absurd hc (by decide)
  · exact h p hp hc

end Parts

section Writers

theorem writeLines_eq_ok {lines : List (Except ManifestError Line)} {text : Text}
    (h : writeLines lines = .ok text) :
    ∃ ls : List Line, lines = ls.map Except.ok ∧ (∀ l ∈ ls, l.Safe) ∧
      text = manifestHeader ++ (ls.map Line.text).flatten := by
  unfold writeLines at h
  cases htexts : lines.mapM (fun l ↦ l >>= manifestLine) with
  | error e =>
    rw [htexts] at h
    cases h
  | ok texts =>
    rw [htexts] at h
    obtain rfl := Except.ok.inj h
    have hall := mapM_eq_ok.mp htexts
    clear htexts h
    induction hall with
    | nil => exact ⟨[], rfl, fun l hl ↦ absurd hl List.not_mem_nil, rfl⟩
    | @cons x t xs ts hx _ ih =>
      obtain ⟨ls, rfl, hsafe, htext⟩ := ih
      cases x with
      | error e => cases hx
      | ok l =>
        obtain ⟨hl, rfl⟩ := manifestLine_eq_ok.mp hx
        refine ⟨l :: ls, rfl, List.forall_mem_cons.mpr ⟨hl, hsafe⟩, ?_⟩
        rw [List.flatten_cons, List.map_cons, List.flatten_cons, List.append_cancel_left htext]

/-- A line of a member. -/
structure MemberLine (paths : List Text) (l : Line) : Prop where
  kind : l.kind = .file ∨ l.kind = .link
  aux : '\x00' ∉ l.aux
  path : l.path ∈ paths

theorem plain_directoryLine {paths : List Text} (h : ∀ path ∈ paths, MemberPath path) (t : ℤ) {d : Text}
    (hd : d ∈ directoriesOf paths) : (directoryLine t d).Plain := by
  obtain ⟨path, hpath, hd⟩ := mem_directoriesOf.mp hd
  obtain ⟨ps, -, hps, rfl⟩ := mem_parentDirectories.mp hd
  refine ⟨show '\x00' ∉ ['-'] by decide, nul_notMem_absolute fun p hp hc ↦ (h path hpath).nul ?_⟩
  exact mem_of_mem_parts (List.dropLast_subset _ (hps.subset hp)) hc

/-- A manifest of directories and members, as the replay reads it. -/
theorem readManifest_install {paths : List Text} {t : ℤ} {lines : List (Except ManifestError Line)} {text : Text}
    (hpaths : ∀ path ∈ paths, MemberPath path) (hlines : ∀ l, .ok l ∈ lines → MemberLine paths l)
    (h : writeLines (directoryLines t paths ++ lines) = .ok text) :
    ∃ ds members, readManifest (encode text) = some (ds ++ members) ∧
      (∀ e ∈ ds, storedTime t = BitVec.ofInt 32 e.mtime) ∧
      InstallEntries ds members (directoryStamp (storedTime t)) := by
  obtain ⟨ls, hls, hsafe, rfl⟩ := writeLines_eq_ok h
  obtain ⟨ls₁, ls₂, rfl, hds, rfl⟩ := List.map_eq_append_iff.mp hls.symm
  have hds' : ls₁ = (directoriesOf paths).map (directoryLine t) := by
    have hok : Function.Injective (List.map (Except.ok : Line → Except ManifestError Line)) :=
      List.map_injective_iff.mpr fun _ _ ↦ Except.ok.inj
    refine hok (hds.trans ?_)
    rw [List.map_map]
    rfl
  have hmember : ∀ l ∈ ls₂, MemberLine paths l := fun l hl ↦ hlines l (List.mem_map_of_mem hl)
  subst hds'
  have hplain : ∀ l ∈ (directoriesOf paths).map (directoryLine t) ++ ls₂, l.Plain := by
    intro l hl
    rcases List.mem_append.mp hl with hl | hl
    · obtain ⟨d, hd, rfl⟩ := List.mem_map.mp hl
      exact plain_directoryLine hpaths t hd
    · exact ⟨(hmember l hl).aux, (hpaths _ (hmember l hl).path).nul⟩
  have hnamed : NamedPaths paths := fun path hpath p hp ↦ isName_of_mem_parts (hpaths path hpath).dotdot hp
  refine ⟨(directoriesOf paths).map fun d ↦ (directoryLine t d).entry, ls₂.map Line.entry, ?_, ?_,
    installEntries hnamed t ?_ ?_⟩
  · rw [readManifest_lines hsafe hplain, List.map_append, List.map_map]
    rfl
  · intro e he
    obtain ⟨d, -, rfl⟩ := List.mem_map.mp he
    rfl
  · intro e he
    obtain ⟨l, hl, rfl⟩ := List.mem_map.mp he
    rcases (hmember l hl).kind with hk | hk
    · exact .inl (congrArg Kind.letter hk)
    · exact .inr (congrArg Kind.letter hk)
  · intro e he
    obtain ⟨l, hl, rfl⟩ := List.mem_map.mp he
    exact dotdot_notMem_components (hpaths _ (hmember l hl).path).dotdot

theorem nul_notMem_zeroPadded (width n : ℕ) : '\x00' ∉ zeroPadded width n := by
  rw [zeroPadded, List.mem_append, not_or]
  refine ⟨fun h ↦ absurd (List.eq_of_mem_replicate h) (by decide), fun h ↦ ?_⟩
  obtain ⟨d, hd, hc⟩ := mem_toDigits (by decide) n h
  exact (Line.ascii_of_digit hd).2 hc.symm

theorem nul_notMem_packagePayload (work : Plain) (fileNumber : ℕ) (filesystem : Filesystem) (index : ℕ) :
    '\x00' ∉ packagePayload work fileNumber filesystem index := by
  have hname : '\x00' ∉ filesystem.name := by cases filesystem <;> decide
  simp only [packagePayload, List.mem_append, not_or]
  exact ⟨⟨⟨⟨⟨⟨⟨work.2, by decide⟩, nul_notMem_zeroPadded 3 fileNumber⟩, by decide⟩, hname⟩, by decide⟩,
    nul_notMem_zeroPadded 4 index⟩, by decide⟩

theorem nul_notMem_lstripDots {t : Text} (h : '\x00' ∉ t) : '\x00' ∉ lstripDots t := fun hc ↦
  h ((List.dropWhile_suffix _).subset hc)

theorem nul_notMem_linkTarget (filesystem : Filesystem) {paths : Dict Text Text} {linkname : Text}
    (hpaths : ∀ k v, paths.get? k = some v → '\x00' ∉ v) (h : '\x00' ∉ linkname) :
    '\x00' ∉ linkTarget filesystem paths linkname := by
  have hname := nul_notMem_lstripDots h
  unfold linkTarget
  dsimp only
  cases hget : paths.get? (lstripDots linkname) with
  | some v => exact hpaths _ v hget
  | none =>
    rw [Option.getD_none, List.mem_cons, not_or]
    refine ⟨by decide, ?_⟩
    split
    · exact fun hc ↦ hname (List.mem_of_mem_drop hc)
    · exact hname

theorem mem_packageLines {work : Plain} {fileNumber : ℕ} {filesystem : Filesystem}
    {selected : List (Member × Text)} (hselected : ∀ s ∈ selected, '\x00' ∉ s.2) {paths : Dict Text Text}
    (hpaths : ∀ k v, paths.get? k = some v → '\x00' ∉ v) {index : ℕ} {l : Line}
    (hl : .ok l ∈ packageLines work fileNumber filesystem paths index selected) :
    MemberLine (selected.map Prod.snd) l := by
  induction selected generalizing paths index with
  | nil => cases hl
  | cons s selected ih =>
    obtain ⟨m, path⟩ := s
    have hrest : ∀ s ∈ selected, '\x00' ∉ s.2 := fun s hs ↦ hselected s (List.mem_cons_of_mem _ hs)
    have hmore : ∀ {l}, MemberLine (selected.map Prod.snd) l →
        MemberLine (((m, path) :: selected).map Prod.snd) l := fun h ↦
      ⟨h.kind, h.aux, List.mem_cons_of_mem _ h.path⟩
    rw [packageLines] at hl
    split at hl
    · rcases List.mem_cons.mp hl with hl | hl
      · obtain rfl := Except.ok.inj hl
        exact ⟨.inl rfl, nul_notMem_packagePayload work fileNumber filesystem index, List.mem_cons_self⟩
      · refine hmore (ih hrest (fun k v hv ↦ ?_) hl)
        rw [Dict.get?_set] at hv
        split at hv
        · exact Option.some.inj hv ▸ hselected (m, path) List.mem_cons_self
        · exact hpaths k v hv
    · rename_i linkname _
      rcases List.mem_cons.mp hl with hl | hl
      · obtain rfl := Except.ok.inj hl
        exact ⟨.inr rfl, nul_notMem_linkTarget filesystem hpaths linkname.2, List.mem_cons_self⟩
      · exact hmore (ih hrest hpaths hl)
    · rw [List.mem_singleton] at hl
      cases hl

theorem nul_notMem_relativeTo {filesystem : Filesystem} {m : Member} {relative : Text}
    (h : relativeTo filesystem m = some relative) : '\x00' ∉ relative := by
  have hname := nul_notMem_lstripDots m.name.2
  unfold relativeTo at h
  dsimp only at h
  split at h
  · cases h
  · obtain rfl := Option.some.inj h
    split
    · exact fun hc ↦ hname (List.mem_of_mem_drop hc)
    · exact hname

theorem memberPath_of_select {filesystem : Filesystem} {members : List Member}
    {selected : List (Member × Text)} (h : select filesystem members = .ok selected) :
    ∀ s ∈ selected, MemberPath s.2 := by
  intro s hs
  obtain ⟨⟨m, relative⟩, hmem, hok⟩ := exists_of_mapM_eq_ok h hs
  obtain ⟨m', hm', hrel⟩ := List.mem_filterMap.mp hmem
  obtain ⟨r, hr, heq⟩ := Option.map_eq_some_iff.mp hrel
  cases heq
  dsimp only at hok
  split at hok
  · cases hok
  · rename_i hsafe
    obtain rfl := Except.ok.inj hok
    exact memberPath (nul_notMem_relativeTo hr) hsafe

theorem nul_notMem_upgradePayload (work : Plain) (index : ℕ) : '\x00' ∉ upgradePayload work index := by
  simp only [upgradePayload, List.mem_append, not_or]
  exact ⟨⟨⟨work.2, by decide⟩, nul_notMem_zeroPadded 4 index⟩, by decide⟩

theorem mem_upgradeFiles {work : Plain} {members : List Member} {index : ℕ} {l : Line}
    (hl : .ok l ∈ upgradeFiles work index members) : MemberLine (members.map upgradePath) l := by
  induction members generalizing index with
  | nil => cases hl
  | cons m members ih =>
    have hmore : ∀ {l}, MemberLine (members.map upgradePath) l →
        MemberLine ((m :: members).map upgradePath) l := fun h ↦
      ⟨h.kind, h.aux, List.mem_cons_of_mem _ h.path⟩
    rw [upgradeFiles] at hl
    split at hl
    · rcases List.mem_cons.mp hl with hl | hl
      · obtain rfl := Except.ok.inj hl
        exact ⟨.inl rfl, nul_notMem_upgradePayload work index, List.mem_cons_self⟩
      · exact hmore (ih hl)
    · exact hmore (ih hl)
    · rw [List.mem_singleton] at hl
      cases hl

theorem mem_upgradeLinks {members : List Member} {l : Line} (hl : .ok l ∈ members.filterMap upgradeLink) :
    MemberLine (members.map upgradePath) l := by
  obtain ⟨m, hm, hlink⟩ := List.mem_filterMap.mp hl
  unfold upgradeLink at hlink
  split at hlink
  · rename_i linkname _
    obtain rfl := Except.ok.inj (Option.some.inj hlink)
    refine ⟨.inr rfl, ?_, List.mem_map_of_mem hm⟩
    rw [List.mem_cons, not_or]
    exact ⟨by decide, nul_notMem_lstripDots linkname.2⟩
  · cases hlink

end Writers

section Manifests

/-- A manifest of a package or of the update. -/
inductive InstallManifest : Text → Prop
  | package {work fileNumber members manifests filesystem text count} :
    writePackageManifests work fileNumber members = .ok manifests →
    (filesystem, text, count) ∈ manifests → InstallManifest text
  | upgrade {work members text} : writeUpgradeManifest work members = .ok text → InstallManifest text

theorem writePackageManifest_eq_ok {work : Plain} {fileNumber : ℕ} {members : List Member}
    {filesystem : Filesystem} {text : Text} {count : ℕ}
    (h : writePackageManifest work fileNumber members filesystem = .ok (some (text, count))) :
    ∃ selected, select filesystem members = .ok selected ∧
      packageManifest work fileNumber filesystem selected = .ok text := by
  unfold writePackageManifest at h
  cases hselected : select filesystem members with
  | error e =>
    rw [hselected] at h
    cases h
  | ok selected =>
    rw [hselected] at h
    simp only [bind, Except.bind] at h
    split at h
    · cases h
    · cases htext : packageManifest work fileNumber filesystem selected with
      | error e =>
        rw [htext] at h
        cases h
      | ok text' =>
        rw [htext] at h
        cases h
        exact ⟨selected, rfl, htext⟩

theorem writePackageManifests_eq_ok {work : Plain} {fileNumber : ℕ} {members : List Member}
    {manifests : List (Filesystem × Text × ℕ)} (h : writePackageManifests work fileNumber members = .ok manifests)
    {filesystem : Filesystem} {text : Text} {count : ℕ} (hmem : (filesystem, text, count) ∈ manifests) :
    ∃ filesystem, writePackageManifest work fileNumber members filesystem = .ok (some (text, count)) := by
  unfold writePackageManifests at h
  cases hroot : writePackageManifest work fileNumber members .root with
  | error e =>
    rw [hroot] at h
    cases h
  | ok root =>
    cases husr : writePackageManifest work fileNumber members .usr with
    | error e =>
      rw [hroot, husr] at h
      cases h
    | ok usr =>
      rw [hroot, husr] at h
      obtain rfl := Except.ok.inj h
      rcases List.mem_append.mp hmem with hmem | hmem
      · obtain ⟨r, rfl, hr⟩ := Option.map_eq_some_iff.mp (Option.mem_toList.mp hmem)
        cases hr
        exact ⟨.root, hroot⟩
      · obtain ⟨r, rfl, hr⟩ := Option.map_eq_some_iff.mp (Option.mem_toList.mp hmem)
        cases hr
        exact ⟨.usr, husr⟩

theorem writeUpgradeManifest_eq_ok {work : Plain} {members : List Member} {text : Text}
    (h : writeUpgradeManifest work members = .ok text) :
    (∀ m ∈ members, ¬ isUnsafe m.stripped) ∧
      writeLines (directoryLines (directoryTimeOf members) (members.map upgradePath) ++
        (upgradeFiles work 0 members ++ members.filterMap upgradeLink)) = .ok text := by
  unfold writeUpgradeManifest at h
  cases hfind : members.find? (isUnsafe ·.stripped) with
  | some m =>
    simp only [hfind] at h
    cases h
  | none =>
    simp only [hfind] at h
    split at h
    · cases h
    · exact ⟨fun m hm ↦ by simpa using List.find?_eq_none.mp hfind m hm, h⟩

theorem InstallManifest.entries {text : Text} (h : InstallManifest text) :
    ∃ ds members time, readManifest (encode text) = some (ds ++ members) ∧
      (∀ e ∈ ds, time = BitVec.ofInt 32 e.mtime) ∧ InstallEntries ds members (directoryStamp time) := by
  cases h with
  | package hmanifests hmem =>
    obtain ⟨filesystem, hmanifest⟩ := writePackageManifests_eq_ok hmanifests hmem
    obtain ⟨selected, hselected, htext⟩ := writePackageManifest_eq_ok hmanifest
    have hpaths := memberPath_of_select hselected
    obtain ⟨ds, ms, hread, htime, hentries⟩ := readManifest_install
      (fun path hpath ↦ by
        obtain ⟨s, hs, rfl⟩ := List.mem_map.mp hpath
        exact hpaths s hs)
      (fun l hl ↦ mem_packageLines (fun s hs ↦ (hpaths s hs).nul) (fun k v hv ↦ by cases hv) hl) htext
    exact ⟨ds, ms, _, hread, htime, hentries⟩
  | @upgrade work members _ hmanifest =>
    obtain ⟨hsafe, htext⟩ := writeUpgradeManifest_eq_ok hmanifest
    obtain ⟨ds, ms, hread, htime, hentries⟩ := readManifest_install
      (fun path hpath ↦ by
        obtain ⟨m, hm, rfl⟩ := List.mem_map.mp hpath
        exact memberPath (nul_notMem_lstripDots m.name.2) (hsafe m hm))
      (fun l hl ↦ (List.mem_append.mp hl).elim mem_upgradeFiles mem_upgradeLinks) htext
    exact ⟨ds, ms, _, hread, htime, hentries⟩

/-- Every directory that a `d` entry names is one that the replay would make in the same way. -/
def Named (fs : Fs) (entries : List Entry) : Prop :=
  ∀ e ∈ entries, e.kind = 'd' → ∀ i p, fs.namei e.path = .ok i → fs.inodes.get? i = some p → p.isDirectory →
    p.metadata = directoryStamp (BitVec.ofInt 32 e.mtime)

end Manifests

section Example

theorem work_plain : '\x00' ∉ ['w'] := by decide

theorem aSlashB_plain : '\x00' ∉ ['a', '/', 'b'] := by decide

/-- The file `a/b`. -/
def oneMember : Member where
  name := ⟨['a', '/', 'b'], aSlashB_plain⟩
  mode := 0o644
  uid := 0
  gid := 0
  mtime := 0
  kind := .file []

def memberLine : Line :=
  ⟨.file, oneMember.metadata, upgradePayload ⟨['w'], work_plain⟩ 0, ['/', 'a', '/', 'b']⟩

def oneManifest : Text := manifestHeader ++ ((directoryLine 0 ['/', 'a']).text ++ memberLine.text)

theorem installManifest_oneManifest : InstallManifest oneManifest :=
  .upgrade (show writeUpgradeManifest ⟨['w'], work_plain⟩ [oneMember] = .ok oneManifest by decide +kernel)

/-- A file system with the directory `/a`. -/
def oneDirectory (mode : ℕ) (owner : Word) : Fs where
  inodes := (Dict.set ∅ 2 ⟨.directory [some (['.'], 2), some (['.', '.'], 2), some (['a'], 3)],
    0o755, 3, 0, 0, 0, 0⟩).set 3 ⟨.directory [some (['.'], 3), some (['.', '.'], 2)], mode, 2, owner, owner, 0, 0⟩
  calls := 0

/-- A host where space never runs out. -/
def roomyHost : Host where
  clock n := BitVec.ofNat 32 n
  signedChar := true
  files _ := some []
  pick fs := some (fs.inodes.keys.sum + 2)
  slotRoom _ _ := true
  dataRoom _ _ data := data.length
  raw fs _ := fs

theorem roomy_roomyHost : Roomy roomyHost := by
  intro fs
  refine ⟨?_, fun _ ↦ rfl⟩
  have hfree : fs.inodes.keys.sum + 2 ∉ fs.inodes := by
    intro hmem
    have := List.le_sum_of_mem (Dict.mem_keys.mpr hmem)
    omega
  have hpick : ialloc roomyHost fs = some (fs.inodes.keys.sum + 2) := by
    refine Option.filter_eq_some_iff.mpr ⟨rfl, ?_⟩
    simp [hfree, rootIno]
  rw [hpick]
  rfl

theorem spacious_roomyHost : Spacious roomyHost := fun _ _ _ ↦ le_rfl

theorem exists_mem_of_lookup {n : Text} {ss : List Slot} {k : ℕ} (h : lookup n ss = some k) :
    ∃ s ∈ ss, s.map Prod.snd = some k := by
  induction ss with
  | nil => cases h
  | cons s ss ih =>
    cases s with
    | none =>
      obtain ⟨s, hs, hk⟩ := ih h
      exact ⟨s, List.mem_cons_of_mem _ hs, hk⟩
    | some e =>
      obtain ⟨m, l⟩ := e
      rw [lookup] at h
      split at h
      · exact ⟨some (m, l), List.mem_cons_self, h⟩
      · obtain ⟨s, hs, hk⟩ := ih h
        exact ⟨s, List.mem_cons_of_mem _ hs, hk⟩

theorem consistent_oneDirectory (mode : ℕ) (owner : Word) : (oneDirectory mode owner).Consistent := by
  refine ⟨by simp [oneDirectory, rootIno, Dict.mem_set], fun i n k hc ↦ ?_⟩
  obtain ⟨ss, hss, hlookup⟩ := Fs.child_eq_some.mp hc
  obtain ⟨s, hs, hk⟩ := exists_mem_of_lookup hlookup
  obtain ⟨p, hp, hps⟩ := Option.bind_eq_some_iff.mp hss
  have hmem : k = 2 ∨ k = 3 := by
    simp only [oneDirectory, Dict.get?_set, Dict.get?_empty] at hp
    split at hp
    · obtain rfl := Option.some.inj hp
      obtain rfl := Option.some.inj hps
      simp only [List.mem_cons, List.not_mem_nil, or_false] at hs
      rcases hs with rfl | rfl <;> simp at hk <;> omega
    · split at hp
      · obtain rfl := Option.some.inj hp
        obtain rfl := Option.some.inj hps
        simp only [List.mem_cons, List.not_mem_nil, or_false] at hs
        rcases hs with rfl | rfl | rfl <;> simp at hk <;> omega
      · cases hp
  rcases hmem with rfl | rfl <;> simp [oneDirectory, Dict.mem_set]

theorem readManifest_oneManifest : readManifest (encode oneManifest) =
    some [(directoryLine 0 ['/', 'a']).entry, memberLine.entry] := by decide +kernel

end Example

end S8000.Restore
