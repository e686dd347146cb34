import S8000.Restore.DumpSections
import S8000.Restore.Sowing

namespace S8000.Restore

open Foundation Foundation.Bytes Foundation.Numerals Foundation.Namespace V7
open Dump (Text Dinode Inodes Blocks Resolves isDir isDot)

section Paths

variable {inodes : Inodes} {blocks : Blocks} {k : ℕ} {p q : List Text} {n : Text}

theorem Reached.mem (hp : Reached inodes blocks p k) (hn : n ∈ p) :
    (∃ i j, Dump.Entry inodes blocks i n j) ∧ ¬ isDot n := ⟨hp.2.mem hn, hp.1 n hn⟩

/-- A path that is reached ends in an entry of a directory that is reached. -/
theorem Reached.parent (hp : Reached inodes blocks (q ++ [n]) k) :
    ∃ i, Reached inodes blocks q i ∧ Dump.Entry inodes blocks i n k ∧ ¬ isDot n := by
  obtain ⟨hplain, hn⟩ := Dump.plain_concat.mp hp.1
  obtain ⟨i, hi, he⟩ := leads_concat.mp hp.2
  exact ⟨i, ⟨hplain, hi⟩, he, hn⟩

theorem Reached.child {i : ℕ} (hq : Reached inodes blocks q i) (he : Dump.Entry inodes blocks i n k) (hn : ¬ isDot n) :
    Reached inodes blocks (q ++ [n]) k := ⟨Dump.plain_concat.mpr ⟨hq.1, hn⟩, leads_concat.mpr ⟨i, hq.2, he⟩⟩

variable (htree : Treelike inodes blocks)
include htree

theorem Treelike.char_absolute (hp : Reached inodes blocks p k) :
    ∀ c ∈ absolute p, c.toNat < 128 ∧ c ≠ '\t' ∧ c ≠ '\n' ∧ c ≠ '\x00' := by
  intro c hc
  have hslash : '/'.toNat < 128 ∧ '/' ≠ '\t' ∧ '/' ≠ '\n' ∧ '/' ≠ '\x00' := by decide
  rw [absolute, List.mem_cons] at hc
  rcases hc with rfl | hc
  · exact hslash
  rcases Joining.mem_of_mem_intercalate hc with hc | ⟨n, hn, hc⟩
  · rwa [List.mem_singleton.mp hc]
  · obtain ⟨⟨i, j, he⟩, -⟩ := hp.mem hn
    obtain ⟨hascii, htab, hnl, -⟩ := (htree.names he).2 c hc
    refine ⟨hascii, htab, hnl, ?_⟩
    rintro rfl
    obtain ⟨d, hd, hkind⟩ := Dump.mem_of_isDir he.isDir
    rw [Dump.Entry, Dump.direntsOf_eq hd hkind] at he
    exact (mem_entries he).2 hc

theorem Treelike.encode_absolute (hp : Reached inodes blocks p k) : encode (absolute p) = absolute p :=
  encode_of_ascii fun c hc ↦ (htree.char_absolute hp c hc).1

theorem Treelike.clean_absolute (hp : Reached inodes blocks p k) : Clean (absolute p) :=
  ⟨fun hc ↦ (htree.char_absolute hp _ hc).2.1 rfl, fun hc ↦ (htree.char_absolute hp _ hc).2.2.1 rfl⟩

theorem Treelike.nul_notMem_absolute (hp : Reached inodes blocks p k) : '\x00' ∉ absolute p := fun hc ↦
  (htree.char_absolute hp _ hc).2.2.2 rfl

/-- The stem of a path, as the calls of the kernel see it. -/
theorem Treelike.components_stem (hq : Reached inodes blocks q k) :
    components (if q = [] then [] else absolute q) = q := by
  split
  · rename_i hnil
    rw [hnil]
    rfl
  · exact htree.components_absolute hq

theorem Treelike.mkdirPath (hp : Reached inodes blocks (q ++ [n]) k) : MkdirPath (absolute (q ++ [n])) q n := by
  obtain ⟨i, hq, he, -⟩ := hp.parent
  have hc := htree.isComponent he
  have hpath : MkdirPath ((if q = [] then [] else absolute q) ++ '/' :: n) _ _ := Restore.mkdirPath hc.ne_nil hc.slash
  rwa [htree.components_stem hq, List.take_of_length_le (length_name_le he), ← absolute_concat] at hpath

end Paths

section Names

variable (inodes : Inodes) (blocks : Blocks)

/-- The objects that a replay makes: the inodes of the dump and the temporary files. -/
abbrev Key := ℕ ⊕ List Text

def dumpName (p : List Text) : Made Key :=
  ⟨p, if isDir inodes (inoAt inodes blocks p) then none else some (.inl (inoAt inodes blocks p))⟩

/-- The name that an item of the manifest makes; the root is there. -/
def itemName (path : Text) : Option (Made Key) :=
  if path = ['/'] then none else some (dumpName inodes blocks (components path))

def itemNames (items : List Item) : List (Made Key) := items.filterMap fun x ↦ itemName inodes blocks x.path

/-- The names of the dump, in the order in which they are made. -/
def dumpNames (work name : Plain) : List (Made Key) :=
  itemNames inodes blocks (dumpSections work name inodes blocks).sortedDirectories ++
    itemNames inodes blocks (dumpSections work name inodes blocks).sortedObjects ++
    itemNames inodes blocks (dumpSections work name inodes blocks).sortedLinks

def dumpContent (k : ℕ) (d : Dinode) : Content :=
  if d.kind = Dump.ifreg then .regular ((Dump.filedata k inodes blocks).getD [])
  else .special (d.kind = Dump.ifblk) (BitVec.ofNat 16 (d.rdev.getD 0))

/-- An object as the replay leaves it. -/
def dumpLook (host : Host) (work name : Plain) : Key → Inode
  | .inl k => match inodes.get? k with
    | some d => (Item.line ⟨[], .file, d, []⟩).entry.made host (dumpContent inodes blocks k d)
    | none => (temporaryLine work name []).entry.made host (.regular [])
  | .inr _ => (temporaryLine work name []).entry.made host (.regular [])

end Names

section Sown

variable {κ α : Type} {host : Host} {look : κ → Inode}

/-- Entries that make one name after the other. -/
theorem sown_map (entry : α → Entry) (g : α → Option (Made κ)) {l : List α} {made : List (Made κ)}
    (h : ∀ before x after, l = before ++ x :: after →
      (g x = none → (entry x).kind = 'd' ∧ (entry x).path = ['/']) ∧
      ∀ m, g x = some m → ∃ q n, Fits (made ++ before.filterMap g) m q n ∧
        Plants host look (made ++ before.filterMap g) (entry x) m) :
    Sown host look made (l.map entry) (made ++ l.filterMap g) := by
  induction l generalizing made with
  | nil =>
    rw [List.filterMap_nil, List.append_nil]
    exact .nil made
  | cons x l ih =>
    obtain ⟨hroot, hname⟩ := h [] x l rfl
    cases hx : g x with
    | none =>
      rw [List.filterMap_cons_none hx, List.map_cons]
      refine .root (hroot hx).1 (hroot hx).2 (ih fun before y after hl ↦ ?_)
      have hy := h (x :: before) y after (by rw [hl, List.cons_append])
      rwa [List.filterMap_cons_none hx] at hy
    | some m =>
      obtain ⟨q, n, hfits, hplants⟩ := hname m hx
      rw [List.filterMap_nil, List.append_nil] at hfits hplants
      rw [List.filterMap_cons_some hx, List.map_cons, List.append_cons]
      refine .cons hfits hplants (ih fun before y after hl ↦ ?_)
      have hy := h (x :: before) y after (by rw [hl, List.cons_append])
      rwa [List.filterMap_cons_some hx, List.append_cons] at hy

theorem Sown.append {made made' made'' : List (Made κ)} {es es' : List Entry} (h : Sown host look made es made')
    (h' : Sown host look made' es' made'') : Sown host look made (es ++ es') made'' := by
  induction h with
  | nil => exact h'
  | root he hroot _ ih => exact .root he hroot (ih h')
  | cons hf hp _ ih => exact .cons hf hp (ih h')

end Sown

section Sections

variable {host : Host} {work name : Plain} {inodes : Inodes} {blocks : Blocks} {k : ℕ} {d : Dinode} {first : Text}
  {aliases : List Text} {p q : List Text} {n : Text} {made : List (Made Key)}

theorem Sections.mem_sortedDirectories {s : Sections} {x : Item} : x ∈ s.sortedDirectories ↔ x ∈ s.directories :=
  List.mem_insertionSort _

theorem Sections.mem_sortedObjects {s : Sections} {x : Item} : x ∈ s.sortedObjects ↔ x ∈ s.objects :=
  List.mem_insertionSort _

theorem Sections.mem_sortedLinks {s : Sections} {x : Item} : x ∈ s.sortedLinks ↔ x ∈ s.links :=
  List.mem_insertionSort _

variable (htree : Treelike inodes blocks)
include htree

theorem Treelike.absolute_eq_root (hp : Reached inodes blocks p k) : absolute p = ['/'] ↔ p = [] := by
  constructor
  · intro h
    rw [← htree.components_absolute hp, h]
    rfl
  · rintro rfl
    rfl

theorem Treelike.itemName_absolute (hp : Reached inodes blocks p k) :
    itemName inodes blocks (absolute p) = if p = [] then none else some (dumpName inodes blocks p) := by
  rw [itemName, htree.components_absolute hp]
  exact if_congr (htree.absolute_eq_root hp) rfl rfl

theorem Treelike.dumpName_eq (hp : Reached inodes blocks p k) :
    dumpName inodes blocks p = ⟨p, if isDir inodes k then none else some (.inl k)⟩ := by
  rw [dumpName, htree.inoAt_eq hp.2]

theorem Treelike.tag_dumpName (hp : Reached inodes blocks p k) :
    (dumpName inodes blocks p).tag = if isDir inodes k then .directory p else .object (.inl k) := by
  rw [htree.dumpName_eq hp, Made.tag]
  split <;> rfl

/-- The names of some of the items. -/
theorem mem_itemNames {items : List Item} {P : List Text → ℕ → Prop}
    (hitems : ∀ path, path ∈ items.map Item.path ↔ ∃ p k, Reached inodes blocks p k ∧ P p k ∧ path = absolute p)
    {m : Made Key} : m ∈ itemNames inodes blocks items ↔
      ∃ p k, Reached inodes blocks p k ∧ P p k ∧ p ≠ [] ∧ m = dumpName inodes blocks p := by
  rw [itemNames, List.mem_filterMap]
  constructor
  · rintro ⟨x, hx, hm⟩
    obtain ⟨p, k, hp, hP, hpath⟩ := (hitems x.path).mp (List.mem_map_of_mem hx)
    rw [hpath, htree.itemName_absolute hp] at hm
    split at hm
    · cases hm
    · rename_i hne
      exact ⟨p, k, hp, hP, hne, (Option.some.inj hm).symm⟩
  · rintro ⟨p, k, hp, hP, hne, rfl⟩
    obtain ⟨x, hx, hpath⟩ := List.mem_map.mp ((hitems (absolute p)).mpr ⟨p, k, hp, hP, rfl⟩)
    exact ⟨x, hx, by rw [hpath, htree.itemName_absolute hp, if_neg hne]⟩

theorem mem_directoryPaths {path : Text} :
    path ∈ (dumpSections work name inodes blocks).sortedDirectories.map Item.path ↔
      ∃ p k, Reached inodes blocks p k ∧ isDir inodes k ∧ path = absolute p := by
  simp only [List.mem_map, Sections.mem_sortedDirectories, mem_directories]
  constructor
  · rintro ⟨x, ⟨k, d, first, aliases, hlisted, hdir, rfl⟩, rfl⟩
    obtain ⟨p, rfl, hp⟩ := hlisted.head htree
    exact ⟨p, k, hp, hlisted.isDir_iff.mpr hdir, rfl⟩
  · rintro ⟨p, k, hp, hdir, rfl⟩
    obtain ⟨d, first, aliases, hlisted⟩ := exists_listed htree hp
    obtain ⟨q, rfl, hq⟩ := hlisted.head htree
    rw [htree.unique_path hdir hp hq]
    exact ⟨_, ⟨k, d, _, aliases, hlisted, hlisted.isDir_iff.mp hdir, rfl⟩, rfl⟩

theorem mem_objectPaths {path : Text} :
    path ∈ (dumpSections work name inodes blocks).sortedObjects.map Item.path ↔
      ∃ p k, Reached inodes blocks p k ∧ (¬ isDir inodes k ∧
        ∃ d aliases, Listed inodes blocks k d (absolute p) aliases) ∧ path = absolute p := by
  simp only [List.mem_map, Sections.mem_sortedObjects, mem_objects]
  constructor
  · rintro ⟨x, ⟨k, d, first, aliases, hlisted, hdir, rfl⟩, rfl⟩
    obtain ⟨p, rfl, hp⟩ := hlisted.head htree
    exact ⟨p, k, hp, ⟨hlisted.isDir_iff.not.mpr hdir, d, aliases, hlisted⟩, rfl⟩
  · rintro ⟨p, k, hp, ⟨hdir, d, aliases, hlisted⟩, rfl⟩
    exact ⟨_, ⟨k, d, _, aliases, hlisted, hlisted.isDir_iff.not.mp hdir, rfl⟩, rfl⟩

theorem mem_linkPaths {path : Text} :
    path ∈ (dumpSections work name inodes blocks).sortedLinks.map Item.path ↔
      ∃ p k, Reached inodes blocks p k ∧ (¬ isDir inodes k ∧
        ∃ d first aliases, Listed inodes blocks k d first aliases ∧ absolute p ∈ aliases) ∧ path = absolute p := by
  simp only [List.mem_map, Sections.mem_sortedLinks, mem_links]
  constructor
  · rintro ⟨x, ⟨k, d, first, aliases, hlisted, hdir, path, hpath, rfl⟩, rfl⟩
    obtain ⟨p, rfl, hp⟩ := (hlisted.mem htree).mp (List.mem_cons_of_mem _ hpath)
    exact ⟨p, k, hp, ⟨hlisted.isDir_iff.not.mpr hdir, d, first, aliases, hlisted, hpath⟩, rfl⟩
  · rintro ⟨p, k, hp, ⟨hdir, d, first, aliases, hlisted, hpath⟩, rfl⟩
    exact ⟨_, ⟨k, d, first, aliases, hlisted, hlisted.isDir_iff.not.mp hdir, _, hpath, rfl⟩, rfl⟩

theorem Treelike.root_isDir (hp : Reached inodes blocks [] k) : isDir inodes k := by
  obtain rfl : 2 = k := hp.2
  exact htree.root

/-- A name of the dump fits where its directory is there and it is not. -/
theorem fits_dumpName (hp : Reached inodes blocks (q ++ [n]) k)
    (hdir : q = [] ∨ dumpName inodes blocks q ∈ made) (hnew : ∀ m ∈ made, m.path ≠ q ++ [n]) :
    Fits made (dumpName inodes blocks (q ++ [n])) q n := by
  obtain ⟨i, hq, he, hn⟩ := hp.parent
  refine ⟨rfl, hn, ?_, fun hmem ↦ ?_⟩
  · rcases hdir with rfl | hmem
    · exact List.mem_cons_self
    · refine mem_tags.mpr (.inr ⟨_, hmem, List.not_mem_nil, ?_⟩)
      rw [htree.tag_dumpName hq, if_pos he.isDir]
  · obtain ⟨m, hm, hpath⟩ := List.mem_map.mp hmem
    exact hnew m hm hpath

omit htree in
theorem Sections.pairwise_sortedDirectories (s : Sections) :
    (s.sortedDirectories.map Item.path).Pairwise fun a b ↦ a.count '/' ≤ b.count '/' := by
  refine List.pairwise_map.mpr ((pairwise_inOrder _ _ s.directories).imp fun {a b} hab ↦ ?_)
  have hfirst : toLex (a.path.count '/', a.path) ≤ toLex (b.path.count '/', b.path) := by
    rcases Prod.Lex.toLex_le_toLex.mp hab with h | h
    · exact h.le
    · exact h.1.le
  exact count_le_of_pathLE hfirst

theorem Treelike.count_absolute (hp : Reached inodes blocks p k) (hne : p ≠ []) :
    (absolute p).count '/' = p.length := by
  refine Restore.count_absolute hne fun n hn ↦ ?_
  obtain ⟨⟨i, j, he⟩, hdots⟩ := hp.mem hn
  have hc := htree.isComponent he
  exact ⟨hc.ne_nil, hc.slash, fun h ↦ hdots (.inr h)⟩

omit htree in
theorem nodup_split {β : Type} {f : Item → β} {l before after : List Item} {x : Item} (hnodup : (l.map f).Nodup)
    (hl : l = before ++ x :: after) : ∀ y ∈ before, f y ≠ f x := by
  intro y hy hyx
  rw [hl, List.map_append, List.map_cons, List.nodup_append] at hnodup
  exact hnodup.2.2 _ (List.mem_map_of_mem hy) _ List.mem_cons_self hyx

/-- The names that items made before do not have the path of a later one. -/
theorem itemNames_ne {items before after : List Item} {x : Item} (hnodup : (items.map Item.path).Nodup)
    (hl : items = before ++ x :: after) (hpaths : ∀ path ∈ items.map Item.path, ∃ p k, Reached inodes blocks p k ∧
      path = absolute p) (hp : x.path = absolute p) :
    ∀ m ∈ itemNames inodes blocks before, m.path ≠ p := by
  intro m hm hpath
  obtain ⟨y, hy, hm⟩ := List.mem_filterMap.mp hm
  obtain ⟨q, k, hq, hyq⟩ := hpaths y.path (by rw [hl]; exact List.mem_map_of_mem (List.mem_append_left _ hy))
  rw [hyq, htree.itemName_absolute hq] at hm
  split at hm
  · cases hm
  · rw [← Option.some.inj hm] at hpath
    exact nodup_split hnodup hl y hy (by rw [hyq, hp, ← hpath]; rfl)

variable (host work name)

theorem sown_directories : Sown host (dumpLook inodes blocks host work name) []
    ((dumpSections work name inodes blocks).sortedDirectories.map fun x ↦ x.line.entry)
    (itemNames inodes blocks (dumpSections work name inodes blocks).sortedDirectories) := by
  have hnodup : ((dumpSections work name inodes blocks).sortedDirectories.map Item.path).Nodup :=
    ((List.perm_insertionSort _ _).map _).nodup_iff.mpr (nodup_directories htree)
  have hsorted := (dumpSections work name inodes blocks).pairwise_sortedDirectories
  have hpaths : ∀ path ∈ (dumpSections work name inodes blocks).sortedDirectories.map Item.path,
      ∃ p k, Reached inodes blocks p k ∧ path = absolute p := by
    intro path hpath
    obtain ⟨p, k, hp, -, rfl⟩ := (mem_directoryPaths htree).mp hpath
    exact ⟨p, k, hp, rfl⟩
  refine sown_map (fun x : Item ↦ x.line.entry) (fun x : Item ↦ itemName inodes blocks x.path) fun before x after hl ↦ ?_
  have hx : x ∈ (dumpSections work name inodes blocks).sortedDirectories := by
    rw [hl]
    exact List.mem_append_right _ List.mem_cons_self
  obtain ⟨k, d, first, aliases, hlisted, hdir, rfl⟩ := mem_directories.mp (Sections.mem_sortedDirectories.mp hx)
  obtain ⟨p, rfl, hp⟩ := hlisted.head htree
  have hentry : (Item.line ⟨absolute p, .directory, d, ['-']⟩).entry.path = absolute p := htree.encode_absolute hp
  refine ⟨fun hroot ↦ ⟨rfl, ?_⟩, fun m hm ↦ ?_⟩
  · rw [itemName] at hroot
    split at hroot
    · rwa [hentry]
    · cases hroot
  · rw [htree.itemName_absolute hp] at hm
    split at hm
    · cases hm
    rename_i hne
    obtain rfl := Option.some.inj hm
    obtain ⟨q, n, rfl⟩ := (List.eq_nil_or_concat p).resolve_left hne
    rw [List.concat_eq_append] at *
    obtain ⟨i, hq, he, -⟩ := hp.parent
    refine ⟨q, n, fits_dumpName htree hp ?_ (itemNames_ne htree hnodup hl hpaths rfl), ?_⟩
    · by_cases hqnil : q = []
      · exact .inl hqnil
      right
      have hparent : absolute q ∈ (dumpSections work name inodes blocks).sortedDirectories.map Item.path :=
        (mem_directoryPaths htree).mpr ⟨q, i, hq, he.isDir, rfl⟩
      obtain ⟨y, hy, hyq⟩ := List.mem_map.mp hparent
      refine List.mem_filterMap.mpr ⟨y, ?_, by rw [hyq, htree.itemName_absolute hq, if_neg hqnil]⟩
      -- a parent has fewer slashes than its child
      have hcount : (absolute (q ++ [n])).count '/' = q.length + 1 := by
        rw [htree.count_absolute hp hne, List.length_append]
        rfl
      rw [hl] at hy
      rcases List.mem_append.mp hy with hy | hy
      · exact hy
      · exfalso
        have hle : (absolute (q ++ [n])).count '/' ≤ y.path.count '/' := by
          rcases List.mem_cons.mp hy with rfl | hy
          · exact le_rfl
          · rw [hl, List.map_append, List.map_cons, List.pairwise_append, List.pairwise_cons] at hsorted
            exact hsorted.2.1.1 _ (List.mem_map_of_mem hy)
        rw [hcount, hyq, htree.count_absolute hq hqnil] at hle
        omega
    · rw [htree.dumpName_eq hp, if_pos (hlisted.isDir_iff.mpr hdir)]
      refine .directory rfl ?_
      rw [hentry]
      exact htree.mkdirPath hp

variable {work name}

theorem mem_directoryNames {m : Made Key} :
    m ∈ itemNames inodes blocks (dumpSections work name inodes blocks).sortedDirectories ↔
      ∃ p k, Reached inodes blocks p k ∧ isDir inodes k ∧ p ≠ [] ∧ m = dumpName inodes blocks p :=
  mem_itemNames htree fun _ ↦ mem_directoryPaths htree

theorem mem_objectNames {m : Made Key} :
    m ∈ itemNames inodes blocks (dumpSections work name inodes blocks).sortedObjects ↔
      ∃ p k, Reached inodes blocks p k ∧ (¬ isDir inodes k ∧
        ∃ d aliases, Listed inodes blocks k d (absolute p) aliases) ∧ p ≠ [] ∧ m = dumpName inodes blocks p :=
  mem_itemNames htree fun _ ↦ mem_objectPaths htree

theorem mem_linkNames {m : Made Key} :
    m ∈ itemNames inodes blocks (dumpSections work name inodes blocks).sortedLinks ↔
      ∃ p k, Reached inodes blocks p k ∧ (¬ isDir inodes k ∧
        ∃ d first aliases, Listed inodes blocks k d first aliases ∧ absolute p ∈ aliases) ∧ p ≠ [] ∧
        m = dumpName inodes blocks p :=
  mem_itemNames htree fun _ ↦ mem_linkPaths htree

theorem Treelike.ne_nil_of_not_isDir (hp : Reached inodes blocks p k) (hk : ¬ isDir inodes k) : p ≠ [] := by
  rintro rfl
  exact hk (htree.root_isDir hp)

/-- The names of the dump are the paths below its root. -/
theorem mem_dumpNames {m : Made Key} : m ∈ dumpNames inodes blocks work name ↔
    ∃ p k, Reached inodes blocks p k ∧ p ≠ [] ∧ m = dumpName inodes blocks p := by
  rw [dumpNames, List.mem_append, List.mem_append, mem_directoryNames htree, mem_objectNames htree,
    mem_linkNames htree]
  constructor
  · rintro ((⟨p, k, hp, -, hne, hm⟩ | ⟨p, k, hp, -, hne, hm⟩) | ⟨p, k, hp, -, hne, hm⟩)
    all_goals exact ⟨p, k, hp, hne, hm⟩
  · rintro ⟨p, k, hp, hne, hm⟩
    by_cases hk : isDir inodes k
    · exact .inl (.inl ⟨p, k, hp, hk, hne, hm⟩)
    · obtain ⟨d, first, aliases, hlisted⟩ := exists_listed htree hp
      rcases List.mem_cons.mp ((hlisted.mem htree).mpr ⟨p, rfl, hp⟩) with hfirst | halias
      · exact .inl (.inr ⟨p, k, hp, ⟨hk, d, aliases, hfirst ▸ hlisted⟩, hne, hm⟩)
      · exact .inr ⟨p, k, hp, ⟨hk, d, first, aliases, hlisted, halias⟩, hne, hm⟩

variable (work name) in
/-- The name of an object, in a directory that is there. -/
theorem fits_objectName (hp : Reached inodes blocks p k) (hne : p ≠ [])
    (hdirs : ∀ m ∈ itemNames inodes blocks (dumpSections work name inodes blocks).sortedDirectories, m ∈ made)
    (hnew : ∀ m ∈ made, m.path ≠ p) : ∃ q n, Fits made (dumpName inodes blocks p) q n := by
  obtain ⟨q, n, rfl⟩ := (List.eq_nil_or_concat p).resolve_left hne
  rw [List.concat_eq_append] at *
  obtain ⟨i, hq, he, -⟩ := hp.parent
  refine ⟨q, n, fits_dumpName htree hp ?_ hnew⟩
  by_cases hqnil : q = []
  · exact .inl hqnil
  · exact .inr (hdirs _ ((mem_directoryNames htree).mpr ⟨q, i, hq, he.isDir, hqnil, rfl⟩))

omit htree in
theorem object_mem_tags {t : Key} : .object t ∈ tags made [] ↔ ∃ m ∈ made, m.key = some t := by
  rw [mem_tags]
  constructor
  · rintro (h | ⟨m, hm, -, htag⟩)
    · cases h
    · exact ⟨m, hm, tag_eq_object.mp htag⟩
  · rintro ⟨m, hm, hkey⟩
    exact .inr ⟨m, hm, List.not_mem_nil, tag_eq_object.mpr hkey⟩

theorem Treelike.key_dumpName (hp : Reached inodes blocks p k) {t : ℕ} :
    (dumpName inodes blocks p).key = some (.inl t) ↔ ¬ isDir inodes k ∧ k = t := by
  rw [htree.dumpName_eq hp]
  by_cases hk : isDir inodes k <;> simp [hk]

omit htree in
theorem letter_objectKind {d : Dinode} (hreg : d.kind ≠ Dump.ifreg) :
    (objectKind d).letter = if decide (d.kind = Dump.ifblk) then 'b' else 'c' := by
  rw [objectKind, if_neg hreg]
  by_cases hblk : d.kind = Dump.ifblk <;> simp [hblk, Kind.letter]

omit htree in
/-- The number of a device comes out of its field as the low 16 bits. -/
theorem strtoul_rdev (rdev : ℕ) :
    BitVec.ofNat 16 (strtoul 0 (encode (decimal (rdev &&& 0xFFFF : ℕ)))) = BitVec.ofNat 16 rdev := by
  have hlow : rdev &&& 0xFFFF = rdev % 2 ^ 16 := Nat.and_two_pow_sub_one_eq_mod rdev 16
  have hdecimal : decimal (rdev &&& 0xFFFF : ℕ) = Nat.toDigits 10 (rdev &&& 0xFFFF) := rfl
  rw [encode_of_ascii fun c hc ↦ (Line.ascii_decimal hc).1, hdecimal, strtoul_zero_toDigits (by omega), hlow]
  exact BitVec.eq_of_toNat_eq (by simp)

variable (hdescribed : ∀ k d first aliases, Listed inodes blocks k d first aliases → Described blocks k d)
include hdescribed

theorem sown_objects
    (hfiles : ∀ f ∈ (dumpSections work name inodes blocks).payloads, host.files (encode f.1) = some f.2) :
    Sown host (dumpLook inodes blocks host work name)
      (itemNames inodes blocks (dumpSections work name inodes blocks).sortedDirectories)
      ((dumpSections work name inodes blocks).sortedObjects.map fun x ↦ x.line.entry)
      (itemNames inodes blocks (dumpSections work name inodes blocks).sortedDirectories ++
        itemNames inodes blocks (dumpSections work name inodes blocks).sortedObjects) := by
  have hnodup : ((dumpSections work name inodes blocks).sortedObjects.map Item.path).Nodup :=
    ((List.perm_insertionSort _ _).map _).nodup_iff.mpr (nodup_objects htree)
  have hpaths : ∀ path ∈ (dumpSections work name inodes blocks).sortedObjects.map Item.path,
      ∃ p k, Reached inodes blocks p k ∧ path = absolute p := by
    intro path hpath
    obtain ⟨p, k, hp, -, rfl⟩ := (mem_objectPaths htree).mp hpath
    exact ⟨p, k, hp, rfl⟩
  refine sown_map (fun x : Item ↦ x.line.entry) (fun x : Item ↦ itemName inodes blocks x.path) fun before x after hl ↦ ?_
  have hx : x ∈ (dumpSections work name inodes blocks).sortedObjects := by
    rw [hl]
    exact List.mem_append_right _ List.mem_cons_self
  obtain ⟨k, d, first, aliases, hlisted, hdir, rfl⟩ := mem_objects.mp (Sections.mem_sortedObjects.mp hx)
  obtain ⟨p, rfl, hp⟩ := hlisted.head htree
  have hk : ¬ isDir inodes k := hlisted.isDir_iff.not.mpr hdir
  have hne := htree.ne_nil_of_not_isDir hp hk
  have hentry : encode (absolute p) = absolute p := htree.encode_absolute hp
  have hbefore : ∀ m ∈ itemNames inodes blocks before, m.path ≠ p := itemNames_ne htree hnodup hl hpaths rfl
  refine ⟨fun hroot ↦ ?_, fun m hm ↦ ?_⟩
  · rw [htree.itemName_absolute hp, if_neg hne] at hroot
    cases hroot
  rw [htree.itemName_absolute hp, if_neg hne] at hm
  obtain rfl := Option.some.inj hm
  -- the object is met here for the first time
  have hfresh : ∀ m ∈ itemNames inodes blocks (dumpSections work name inodes blocks).sortedDirectories ++
      itemNames inodes blocks before, m.path ≠ p ∧ m.key ≠ some (.inl k) := by
    intro m hm
    rcases List.mem_append.mp hm with hm | hm
    · obtain ⟨q, i, hq, hi, -, rfl⟩ := (mem_directoryNames htree).mp hm
      refine ⟨?_, fun hkey ↦ ((htree.key_dumpName hq).mp hkey).1 hi⟩
      rintro rfl
      exact hk (htree.resolves_unique hq.2 hp.2 ▸ hi)
    · refine ⟨hbefore m hm, fun hkey ↦ hbefore m hm ?_⟩
      have hmem : m ∈ itemNames inodes blocks (dumpSections work name inodes blocks).sortedObjects := by
        rw [hl, itemNames, List.filterMap_append]
        exact List.mem_append_left _ hm
      obtain ⟨q, i, hq, ⟨-, d', aliases', hlisted'⟩, -, rfl⟩ := (mem_objectNames htree).mp hmem
      obtain ⟨-, rfl⟩ := (htree.key_dumpName hq).mp hkey
      exact htree.absolute_injective hq hp (hlisted'.unique hlisted).2.1
  obtain ⟨q, n, hfits⟩ := fits_objectName work name htree hp hne (fun m hm ↦ List.mem_append_left _ hm)
    fun m hm ↦ (hfresh m hm).1
  refine ⟨q, n, hfits, ?_⟩
  have hself : components (encode (absolute p)) = p := by rw [hentry, htree.components_absolute hp]
  have htag : .object (.inl k) ∉ tags (itemNames inodes blocks
      (dumpSections work name inodes blocks).sortedDirectories ++ itemNames inodes blocks before) [] := by
    rw [object_mem_tags]
    rintro ⟨m, hm, hkey⟩
    exact (hfresh m hm).2 hkey
  have hlook : dumpLook inodes blocks host work name (.inl k) =
      (Item.line ⟨absolute p, objectKind d, d, objectAux work name k d⟩).entry.made host
        (dumpContent inodes blocks k d) := by
    rw [dumpLook, hlisted.inode]
    rfl
  have hkind := hdescribed k d _ aliases hlisted
  rw [Described, if_neg hdir] at hkind
  rw [htree.dumpName_eq hp, if_neg hk]
  by_cases hreg : d.kind = Dump.ifreg
  · have hpayload : host.files (Item.line ⟨absolute p, objectKind d, d, objectAux work name k d⟩).entry.aux =
        some ((Dump.filedata k inodes blocks).getD []) := by
      have hfile := hfiles _ (mem_payloads.mpr ⟨k, d, _, aliases, hlisted, hreg, rfl⟩)
      simpa [Item.line, Line.entry, objectAux, hreg] using hfile
    refine .file ?_ hself hpayload ?_ htag
    · simp [Item.line, Line.entry, objectKind, hreg, Kind.letter]
    · rw [hlook, dumpContent, if_pos hreg]
  · obtain ⟨-, hrdev⟩ := hkind.resolve_left hreg
    obtain ⟨rdev, hrdev⟩ := Option.ne_none_iff_exists'.mp hrdev
    refine .device (letter_objectKind hreg) hself ?_ htag
    have haux : (Item.line ⟨absolute p, objectKind d, d, objectAux work name k d⟩).entry.aux =
        encode (decimal (rdev &&& 0xFFFF : ℕ)) := by
      rw [Item.line, Line.entry, objectAux, if_neg hreg, hrdev]
      rfl
    rw [hlook, dumpContent, if_neg hreg, haux, strtoul_rdev, hrdev]
    rfl

omit hdescribed in
theorem sown_links : Sown host (dumpLook inodes blocks host work name)
    (itemNames inodes blocks (dumpSections work name inodes blocks).sortedDirectories ++
      itemNames inodes blocks (dumpSections work name inodes blocks).sortedObjects)
    ((dumpSections work name inodes blocks).sortedLinks.map fun x ↦ x.line.entry)
    (dumpNames inodes blocks work name) := by
  have hnodup : ((dumpSections work name inodes blocks).sortedLinks.map Item.path).Nodup :=
    ((List.perm_insertionSort _ _).map _).nodup_iff.mpr (nodup_links htree)
  have hpaths : ∀ path ∈ (dumpSections work name inodes blocks).sortedLinks.map Item.path,
      ∃ p k, Reached inodes blocks p k ∧ path = absolute p := by
    intro path hpath
    obtain ⟨p, k, hp, -, rfl⟩ := (mem_linkPaths htree).mp hpath
    exact ⟨p, k, hp, rfl⟩
  refine sown_map (fun x : Item ↦ x.line.entry) (fun x : Item ↦ itemName inodes blocks x.path) fun before x after hl ↦ ?_
  have hx : x ∈ (dumpSections work name inodes blocks).sortedLinks := by
    rw [hl]
    exact List.mem_append_right _ List.mem_cons_self
  obtain ⟨k, d, first, aliases, hlisted, hdir, path, hpath, rfl⟩ := mem_links.mp (Sections.mem_sortedLinks.mp hx)
  obtain ⟨p, rfl, hp⟩ := (hlisted.mem htree).mp (List.mem_cons_of_mem _ hpath)
  obtain ⟨r, rfl, hr⟩ := hlisted.head htree
  have hk : ¬ isDir inodes k := hlisted.isDir_iff.not.mpr hdir
  have hne := htree.ne_nil_of_not_isDir hp hk
  have hbefore : ∀ m ∈ itemNames inodes blocks before, m.path ≠ p := itemNames_ne htree hnodup hl hpaths rfl
  refine ⟨fun hroot ↦ ?_, fun m hm ↦ ?_⟩
  · rw [htree.itemName_absolute hp, if_neg hne] at hroot
    cases hroot
  rw [htree.itemName_absolute hp, if_neg hne] at hm
  obtain rfl := Option.some.inj hm
  have hfresh : ∀ m ∈ itemNames inodes blocks (dumpSections work name inodes blocks).sortedDirectories ++
      itemNames inodes blocks (dumpSections work name inodes blocks).sortedObjects ++ itemNames inodes blocks before,
      m.path ≠ p := by
    intro m hm
    rcases List.mem_append.mp hm with hm | hm
    · rcases List.mem_append.mp hm with hm | hm
      · obtain ⟨q, i, hq, hi, -, rfl⟩ := (mem_directoryNames htree).mp hm
        rintro rfl
        exact hk (htree.resolves_unique hq.2 hp.2 ▸ hi)
      · obtain ⟨q, i, hq, ⟨-, d', aliases', hlisted'⟩, -, rfl⟩ := (mem_objectNames htree).mp hm
        rintro rfl
        -- an alias is not the first path of its inode
        obtain rfl := htree.resolves_unique hq.2 hp.2
        obtain ⟨-, hfirst, -⟩ := hlisted'.unique hlisted
        have hq' : absolute q ∈ aliases := hpath
        rw [hfirst] at hq'
        exact (List.nodup_cons.mp hlisted.nodup).1 hq'
    · exact hbefore m hm
  obtain ⟨q, n, hfits⟩ := fits_objectName work name htree hp hne
    (fun m hm ↦ List.mem_append_left _ (List.mem_append_left _ hm)) hfresh
  refine ⟨q, n, hfits, ?_⟩
  have hself : components (encode (absolute p)) = p := by rw [htree.encode_absolute hp, htree.components_absolute hp]
  have htarget : components (encode (absolute r)) = r := by rw [htree.encode_absolute hr, htree.components_absolute hr]
  have hold : dumpName inodes blocks r ∈
      itemNames inodes blocks (dumpSections work name inodes blocks).sortedObjects :=
    (mem_objectNames htree).mpr ⟨r, k, hr, ⟨hk, d, aliases, hlisted⟩, htree.ne_nil_of_not_isDir hr hk, rfl⟩
  rw [htree.dumpName_eq hr, if_neg hk] at hold
  rw [htree.dumpName_eq hp, if_neg hk]
  refine .link rfl hself ?_
  rw [show (Item.line ⟨absolute p, .link, d, absolute r⟩).entry.aux = encode (absolute r) from rfl, htarget]
  exact List.mem_append_left _ (List.mem_append_right _ hold)

/-- The first three sections make the names of the dump. -/
theorem sown_dump (hfiles : ∀ f ∈ (dumpSections work name inodes blocks).payloads, host.files (encode f.1) = some f.2) :
    Sown host (dumpLook inodes blocks host work name) []
      (((dumpSections work name inodes blocks).sortedDirectories ++
        (dumpSections work name inodes blocks).sortedObjects ++
        (dumpSections work name inodes blocks).sortedLinks).map fun x ↦ x.line.entry)
      (dumpNames inodes blocks work name) := by
  rw [List.map_append, List.map_append]
  exact ((sown_directories host work name htree).append (sown_objects host htree hdescribed hfiles)).append
    (sown_links host htree)

end Sections

end S8000.Restore
