import S8000.Restore.DumpTree
import S8000.Restore.Members

namespace S8000.Restore

open Foundation Foundation.Bytes Foundation.Numerals Foundation.Traversal V7
open Dump (Text Dinode Inodes Blocks Resolves isDir isDot)

section Describe

variable {work name : Plain} {inodes : Inodes} {blocks : Blocks}

/-- The live entries of a directory. -/
def liveSlots (blocks : Blocks) (ino : ℕ) (d : Dinode) : ℕ := (Dump.entries d.size (blocks.getD ino ∅)).length

/-- What `describe` does not refuse. -/
def Described (blocks : Blocks) (ino : ℕ) (d : Dinode) : Prop :=
  if d.kind = Dump.ifdir then liveSlots blocks ino d ≤ d.size / 16
  else d.kind = Dump.ifreg ∨ (d.kind = Dump.ifblk ∨ d.kind = Dump.ifchr) ∧ d.rdev ≠ none

def objectKind (d : Dinode) : Kind :=
  if d.kind = Dump.ifreg then .file else if d.kind = Dump.ifblk then .block else .char

def objectAux (work name : Plain) (ino : ℕ) (d : Dinode) : Text :=
  if d.kind = Dump.ifreg then dumpPayload work name ino else decimal (d.rdev.getD 0 &&& 0xFFFF : ℕ)

/-- The sections of an inode. -/
def sectionsOf (work name : Plain) (inodes : Inodes) (blocks : Blocks) (ino : ℕ) (d : Dinode) (first : Text)
    (aliases : List Text) : Sections :=
  if d.kind = Dump.ifdir then {
    directories := [⟨first, .directory, d, ['-']⟩]
    padding := [⟨first, d, d.size / 16 - liveSlots blocks ino d⟩] }
  else { objectSections first aliases (objectKind d) d (objectAux work name ino d) with
    payloads := if d.kind = Dump.ifreg then
      [(dumpPayload work name ino, (Dump.filedata ino inodes blocks).getD [])] else [] }

theorem describe_eq_ok {ino : ℕ} {d : Dinode} {first : Text} {aliases : List Text} {s : Sections} :
    describe work name inodes blocks ino d first aliases = .ok s ↔
      Described blocks ino d ∧ s = sectionsOf work name inodes blocks ino d first aliases := by
  unfold describe Described sectionsOf
  by_cases hdir : d.kind = Dump.ifdir
  · simp only [if_pos hdir]
    by_cases hlive : d.size / 16 < (Dump.entries d.size (blocks.getD ino ∅)).length
    · simp [hlive, liveSlots]
    · simp [hlive, liveSlots, not_lt.mp hlive, eq_comm]
  · simp only [if_neg hdir]
    by_cases hreg : d.kind = Dump.ifreg
    · simp [hreg, objectKind, objectAux, eq_comm]
    · rw [if_neg hreg, or_iff_right hreg, if_neg hreg]
      by_cases hdev : d.kind = Dump.ifblk ∨ d.kind = Dump.ifchr
      · rw [if_pos hdev]
        cases hrdev : d.rdev with
        | none => simp
        | some rdev =>
          rw [Except.ok.injEq, and_iff_right ⟨hdev, Option.some_ne_none _⟩]
          simp [objectKind, objectAux, hreg, hrdev, objectSections, eq_comm]
      · rw [if_neg hdev]
        simp [hdev]

/-- The sections of an item of `all_paths`; without an inode or a path there are none. -/
def itemSections (work name : Plain) (inodes : Inodes) (blocks : Blocks) (item : ℕ × List Text) : Sections :=
  match inodes.get? item.1, item.2.insertionSort pathLE with
  | some d, first :: aliases => sectionsOf work name inodes blocks item.1 d first aliases
  | _, _ => {}

def gather (l : List Sections) : Sections where
  directories := l.flatMap Sections.directories
  objects := l.flatMap Sections.objects
  links := l.flatMap Sections.links
  padding := l.flatMap Sections.padding
  payloads := l.flatMap Sections.payloads

theorem append_gather (s : Sections) (l : List Sections) : s.append (gather l) = gather (s :: l) := rfl

theorem empty_append (s : Sections) : Sections.append {} s = s := rfl

theorem describeAll_eq_ok {items : List (ℕ × List Text)} {s : Sections} :
    describeAll work name inodes blocks items = .ok s ↔
      (∀ item ∈ items, ∀ d, inodes.get? item.1 = some d → item.2 ≠ [] → Described blocks item.1 d) ∧
        s = gather (items.map (itemSections work name inodes blocks)) := by
  induction items generalizing s with
  | nil => simp [describeAll, gather, eq_comm]
  | cons item items ih =>
    obtain ⟨ino, paths⟩ := item
    rw [describeAll, List.forall_mem_cons, List.map_cons, ← append_gather, itemSections]
    cases hget : inodes.get? ino with
    | none => simpa [hget, empty_append] using ih
    | some d =>
      cases hsort : paths.insertionSort pathLE with
      | nil =>
        have hnil : paths = [] := List.length_eq_zero_iff.mp (by
          rw [← List.length_insertionSort pathLE, hsort, List.length_nil])
        simpa [hget, hnil, empty_append] using ih
      | cons first aliases =>
        have hne : paths ≠ [] := by
          rintro rfl
          cases hsort
        simp only [Option.some.injEq, forall_eq', hne, ne_eq, not_false_eq_true, true_imp_iff]
        cases hone : describe work name inodes blocks ino d first aliases with
        | error e =>
          refine iff_of_false nofun fun h ↦ ?_
          rw [describe_eq_ok.mpr ⟨h.1.1, rfl⟩] at hone
          cases hone
        | ok t =>
          obtain ⟨hdescribed, rfl⟩ := describe_eq_ok.mp hone
          cases hrest : describeAll work name inodes blocks items with
          | error e =>
            refine iff_of_false nofun fun h ↦ ?_
            rw [ih.mpr ⟨h.1.2, rfl⟩] at hrest
            cases hrest
          | ok u =>
            obtain ⟨hall, rfl⟩ := ih.mp hrest
            simp only [bind, Except.bind, pure, Except.pure, Except.ok.injEq]
            exact ⟨fun h ↦ ⟨⟨hdescribed, hall⟩, h.symm⟩, fun h ↦ h.2.symm⟩

end Describe

section Lines

theorem manifestLines_eq_ok {lines : List Line} {t : Text} :
    manifestLines lines = .ok t ↔ (∀ l ∈ lines, l.Safe) ∧ t = (lines.map Line.text).flatten := by
  unfold manifestLines
  cases hr : lines.mapM manifestLine with
  | error e =>
    refine iff_of_false nofun fun h ↦ ?_
    rw [mapM_manifestLine_eq_ok.mpr ⟨h.1, rfl⟩] at hr
    cases hr
  | ok r =>
    obtain ⟨hsafe, rfl⟩ := mapM_manifestLine_eq_ok.mp hr
    simp only [bind, Except.bind, pure, Except.pure, Except.ok.injEq]
    exact ⟨fun h ↦ ⟨hsafe, h.symm⟩, fun h ↦ h.2.symm⟩

/-- The order in which `sortedBy` puts tuples that it can sort. -/
def inOrder {α κ ρ : Type} [LinearOrder κ] [LinearOrder ρ] (key : α → κ) (rest : α → ρ) (l : List α) : List α :=
  l.insertionSort fun a b ↦ toLex (key a, rest a) ≤ toLex (key b, rest b)

theorem pairwise_inOrder {α κ ρ : Type} [LinearOrder κ] [LinearOrder ρ] (key : α → κ) (rest : α → ρ) (l : List α) :
    (inOrder key rest l).Pairwise fun a b ↦ toLex (key a, rest a) ≤ toLex (key b, rest b) := by
  have htotal : Std.Total (fun a b : α ↦ toLex (key a, rest a) ≤ toLex (key b, rest b)) := ⟨fun _ _ ↦ le_total _ _⟩
  have htrans : IsTrans α (fun a b ↦ toLex (key a, rest a) ≤ toLex (key b, rest b)) := ⟨fun _ _ _ ↦ le_trans⟩
  exact List.pairwise_insertionSort _ l

/-- Tuples whose paths differ are sorted without a look at their dictionaries. -/
theorem sortedBy_of_nodup {α κ ρ : Type} [LinearOrder κ] [LinearOrder ρ] {key : α → κ} {dinode : α → Dinode}
    {rest : α → ρ} (path : α → Text) (hkey : ∀ a b, key a = key b → path a = path b) {l : List α}
    (h : (l.map path).Nodup) :
    sortedBy key dinode rest l = .ok (inOrder key rest l) := by
  refine if_pos ?_
  refine (List.pairwise_map.mp h).imp fun hne heq ↦ ?_
  exact absurd (hkey _ _ heq) hne

end Lines

section Listed

variable {work name : Plain} {inodes : Inodes} {blocks : Blocks} {k k' : ℕ} {d d' : Dinode} {first first' : Text}
  {aliases aliases' : List Text} {p : List Text} {path : Text}

/-- The sections of all inodes. -/
def dumpSections (work name : Plain) (inodes : Inodes) (blocks : Blocks) : Sections :=
  gather ((Dump.buildAllPaths inodes blocks ['/']).items.map (itemSections work name inodes blocks))

/-- The paths of an inode of the dump, sorted. -/
structure Listed (inodes : Inodes) (blocks : Blocks) (k : ℕ) (d : Dinode) (first : Text) (aliases : List Text) : Prop where
  inode : inodes.get? k = some d
  sorted : ((Dump.buildAllPaths inodes blocks ['/']).getD k []).insertionSort pathLE = first :: aliases

theorem Listed.unique (h : Listed inodes blocks k d first aliases) (h' : Listed inodes blocks k d' first' aliases') :
    d = d' ∧ first = first' ∧ aliases = aliases' := by
  obtain ⟨hfirst, haliases⟩ := List.cons.inj (h.sorted.symm.trans h'.sorted)
  exact ⟨Option.some.inj (h.inode.symm.trans h'.inode), hfirst, haliases⟩

theorem Listed.nodup (h : Listed inodes blocks k d first aliases) : (first :: aliases).Nodup := by
  rw [← h.sorted, (List.perm_insertionSort pathLE _).nodup_iff]
  exact (Dump.sound_buildAllPaths inodes blocks ['/']).nodup k

theorem Listed.isDir_iff (h : Listed inodes blocks k d first aliases) : isDir inodes k ↔ d.kind = Dump.ifdir :=
  Dump.isDir_of_get? h.inode

theorem Listed.mem (htree : Treelike inodes blocks) (h : Listed inodes blocks k d first aliases) :
    path ∈ first :: aliases ↔ ∃ p, path = absolute p ∧ Reached inodes blocks p k := by
  rw [← h.sorted, List.mem_insertionSort, htree.mem_paths]

theorem Listed.head (htree : Treelike inodes blocks) (h : Listed inodes blocks k d first aliases) :
    ∃ p, first = absolute p ∧ Reached inodes blocks p k := (h.mem htree).mp List.mem_cons_self

/-- A directory has no other path. -/
theorem Listed.aliases_eq_nil (htree : Treelike inodes blocks) (h : Listed inodes blocks k d first aliases)
    (hdir : d.kind = Dump.ifdir) : aliases = [] := by
  refine List.eq_nil_iff_forall_not_mem.mpr fun path hpath ↦ ?_
  obtain ⟨p, rfl, hp⟩ := (h.mem htree).mp (List.mem_cons_of_mem _ hpath)
  obtain ⟨q, rfl, hq⟩ := h.head htree
  rw [htree.unique_path (h.isDir_iff.mpr hdir) hp hq] at hpath
  exact (List.nodup_cons.mp h.nodup).1 hpath

theorem exists_listed (htree : Treelike inodes blocks) (hp : Reached inodes blocks p k) :
    ∃ d first aliases, Listed inodes blocks k d first aliases := by
  obtain ⟨d, hd⟩ := Dict.mem_iff_get?_eq_some.mp (htree.mem_inodes hp.2)
  have hmem := htree.mem_paths.mpr ⟨p, rfl, hp⟩
  cases hsort : ((Dump.buildAllPaths inodes blocks ['/']).getD k []).insertionSort pathLE with
  | nil =>
    rw [← List.mem_insertionSort pathLE, hsort] at hmem
    cases hmem
  | cons first aliases => exact ⟨d, first, aliases, hd, hsort⟩

variable (work name) in
theorem Listed.item (h : Listed inodes blocks k d first aliases) :
    (k, (Dump.buildAllPaths inodes blocks ['/']).getD k []) ∈ (Dump.buildAllPaths inodes blocks ['/']).items ∧
      itemSections work name inodes blocks (k, (Dump.buildAllPaths inodes blocks ['/']).getD k []) =
        sectionsOf work name inodes blocks k d first aliases := by
  constructor
  · rw [← Dict.get?_eq_some_iff]
    have hsorted := h.sorted
    rw [Dict.getD] at hsorted ⊢
    cases hget : (Dump.buildAllPaths inodes blocks ['/']).get? k with
    | none =>
      rw [hget] at hsorted
      cases hsorted
    | some paths => rfl
  · rw [itemSections, h.inode, h.sorted]

variable (work name) in
/-- An item without sections, or the sections of an inode. -/
theorem item_cases {item : ℕ × List Text} (hitem : item ∈ (Dump.buildAllPaths inodes blocks ['/']).items) :
    itemSections work name inodes blocks item = {} ∨ ∃ d first aliases, Listed inodes blocks item.1 d first aliases ∧
      itemSections work name inodes blocks item = sectionsOf work name inodes blocks item.1 d first aliases := by
  have hgetD : (Dump.buildAllPaths inodes blocks ['/']).getD item.1 [] = item.2 := by
    rw [Dict.getD, Dict.get?_eq_some_iff.mpr hitem, Option.getD_some]
  rw [itemSections]
  cases hd : inodes.get? item.1 with
  | none => exact .inl rfl
  | some d =>
    cases hsort : item.2.insertionSort pathLE with
    | nil => exact .inl rfl
    | cons first aliases => exact .inr ⟨d, first, aliases, ⟨hd, hgetD ▸ hsort⟩, rfl⟩

variable {β : Type} {f : Sections → List β} {x : β}

theorem mem_items (hf : f {} = []) :
    x ∈ ((Dump.buildAllPaths inodes blocks ['/']).items.map (itemSections work name inodes blocks)).flatMap f ↔
      ∃ k d first aliases, Listed inodes blocks k d first aliases ∧
        x ∈ f (sectionsOf work name inodes blocks k d first aliases) := by
  simp only [List.mem_flatMap, List.mem_map, exists_exists_and_eq_and]
  constructor
  · rintro ⟨item, hitem, hx⟩
    rcases item_cases work name hitem with hempty | ⟨d, first, aliases, hlisted, heq⟩
    · rw [hempty, hf] at hx
      cases hx
    · exact ⟨item.1, d, first, aliases, hlisted, heq ▸ hx⟩
  · rintro ⟨k, d, first, aliases, hlisted, hx⟩
    obtain ⟨hitem, heq⟩ := hlisted.item work name
    exact ⟨_, hitem, heq ▸ hx⟩

/-- Two inodes have no path in common. -/
theorem nodup_items (htree : Treelike inodes blocks) {path : β → Text} (hf : f {} = [])
    (hsub : ∀ {k d first aliases}, Listed inodes blocks k d first aliases →
      ((f (sectionsOf work name inodes blocks k d first aliases)).map path).Sublist (first :: aliases)) :
    ((((Dump.buildAllPaths inodes blocks ['/']).items.map (itemSections work name inodes blocks)).flatMap f).map
      path).Nodup := by
  have hitem : ∀ item ∈ (Dump.buildAllPaths inodes blocks ['/']).items,
      ((f (itemSections work name inodes blocks item)).map path).Nodup ∧
        ∀ x ∈ (f (itemSections work name inodes blocks item)).map path,
          ∃ p, x = absolute p ∧ Reached inodes blocks p item.1 := by
    intro item hitem
    rcases item_cases work name hitem with hempty | ⟨d, first, aliases, hlisted, heq⟩
    · rw [hempty, hf]
      exact ⟨List.nodup_nil, fun x hx ↦ absurd hx List.not_mem_nil⟩
    · rw [heq]
      exact ⟨(hsub hlisted).nodup hlisted.nodup, fun x hx ↦ (hlisted.mem htree).mp ((hsub hlisted).subset hx)⟩
  rw [List.map_flatMap, List.flatMap_map, List.nodup_flatMap]
  refine ⟨fun item h ↦ (hitem item h).1, ?_⟩
  have hkeys := (Dump.buildAllPaths inodes blocks ['/']).nodup_keys
  refine ((List.pairwise_map.mp hkeys).imp_of_mem ?_)
  intro a b ha hb hne x hxa hxb
  obtain ⟨p, rfl, hp⟩ := (hitem a ha).2 x hxa
  obtain ⟨q, hpq, hq⟩ := (hitem b hb).2 _ hxb
  obtain rfl := htree.absolute_injective hp hq hpq
  exact hne (htree.resolves_unique hp.2 hq.2)

end Listed

section Members

variable {work name : Plain} {inodes : Inodes} {blocks : Blocks}

theorem mem_directories {x : Item} : x ∈ (dumpSections work name inodes blocks).directories ↔
    ∃ k d first aliases, Listed inodes blocks k d first aliases ∧ d.kind = Dump.ifdir ∧
      x = ⟨first, .directory, d, ['-']⟩ := by
  refine (mem_items rfl).trans (exists₄_congr fun k d first aliases ↦ and_congr_right fun _ ↦ ?_)
  rw [sectionsOf]
  split <;> simp [objectSections, *]

theorem mem_padding {x : Padding} : x ∈ (dumpSections work name inodes blocks).padding ↔
    ∃ k d first aliases, Listed inodes blocks k d first aliases ∧ d.kind = Dump.ifdir ∧
      x = ⟨first, d, d.size / 16 - liveSlots blocks k d⟩ := by
  refine (mem_items rfl).trans (exists₄_congr fun k d first aliases ↦ and_congr_right fun _ ↦ ?_)
  rw [sectionsOf]
  split <;> simp [objectSections, *]

theorem mem_objects {x : Item} : x ∈ (dumpSections work name inodes blocks).objects ↔
    ∃ k d first aliases, Listed inodes blocks k d first aliases ∧ d.kind ≠ Dump.ifdir ∧
      x = ⟨first, objectKind d, d, objectAux work name k d⟩ := by
  refine (mem_items rfl).trans (exists₄_congr fun k d first aliases ↦ and_congr_right fun _ ↦ ?_)
  rw [sectionsOf]
  split <;> simp [objectSections, *]

theorem mem_links {x : Item} : x ∈ (dumpSections work name inodes blocks).links ↔
    ∃ k d first aliases, Listed inodes blocks k d first aliases ∧ d.kind ≠ Dump.ifdir ∧
      ∃ path ∈ aliases, x = ⟨path, .link, d, first⟩ := by
  refine (mem_items rfl).trans (exists₄_congr fun k d first aliases ↦ and_congr_right fun _ ↦ ?_)
  rw [sectionsOf]
  by_cases hdir : d.kind = Dump.ifdir
  · simp [hdir]
  · rw [if_neg hdir, and_iff_right hdir]
    refine List.mem_map.trans ?_
    exact exists_congr fun path ↦ and_congr_right fun _ ↦ eq_comm

theorem mem_payloads {x : Text × List Byte} : x ∈ (dumpSections work name inodes blocks).payloads ↔
    ∃ k d first aliases, Listed inodes blocks k d first aliases ∧ d.kind = Dump.ifreg ∧
      x = (dumpPayload work name k, (Dump.filedata k inodes blocks).getD []) := by
  have hreg : Dump.ifreg ≠ Dump.ifdir := by decide
  refine (mem_items rfl).trans (exists₄_congr fun k d first aliases ↦ and_congr_right fun _ ↦ ?_)
  rw [sectionsOf]
  by_cases hdir : d.kind = Dump.ifdir
  · simp [hdir, hreg.symm]
  · by_cases hfile : d.kind = Dump.ifreg <;> simp [hfile, hdir, hreg]

variable (htree : Treelike inodes blocks)
include htree

theorem nodup_directories : ((dumpSections work name inodes blocks).directories.map Item.path).Nodup := by
  refine nodup_items htree rfl fun {k d first aliases} _ ↦ ?_
  rw [sectionsOf]
  split <;> simp [objectSections]

theorem nodup_padding : ((dumpSections work name inodes blocks).padding.map Padding.path).Nodup := by
  refine nodup_items htree rfl fun {k d first aliases} _ ↦ ?_
  rw [sectionsOf]
  split <;> simp [objectSections]

theorem nodup_objects : ((dumpSections work name inodes blocks).objects.map Item.path).Nodup := by
  refine nodup_items htree rfl fun {k d first aliases} _ ↦ ?_
  rw [sectionsOf]
  split <;> simp [objectSections]

theorem nodup_links : ((dumpSections work name inodes blocks).links.map Item.path).Nodup := by
  refine nodup_items htree rfl fun {k d first aliases} _ ↦ ?_
  rw [sectionsOf]
  split <;> simp [objectSections, Function.comp_def]

end Members

section Write

namespace Sections

variable (s : Sections)

def sortedDirectories : List Item := inOrder (fun x : Item ↦ toLex (x.path.count '/', x.path)) (fun _ ↦ ()) s.directories

def sortedObjects : List Item := s.objects.insertionSort fun a b ↦
  toLex (toLex (a.path, a.kind.letter), a.aux) ≤ toLex (toLex (b.path, b.kind.letter), b.aux)

def sortedLinks : List Item := s.links.insertionSort fun a b ↦ toLex (a.path, a.aux) ≤ toLex (b.path, b.aux)

/-- The temporary entries of all directories. -/
def temporary : List Text := (s.padding.insertionSort fun a b ↦
  toLex (a.path, a.count) ≤ toLex (b.path, b.count)).flatMap Padding.temporaryPaths

/-- The lines of the manifest. -/
def lines (work name : Plain) : List Line :=
  s.sortedDirectories.map Item.line ++ s.sortedObjects.map Item.line ++ s.sortedLinks.map Item.line ++
    s.temporary.map (temporaryLine work name) ++ s.temporary.map unlinkLine

end Sections

theorem bind_eq_ok {ε α β : Type} {x : Except ε α} {f : α → Except ε β} {b : β} :
    (x >>= f) = .ok b ↔ ∃ a, x = .ok a ∧ f a = .ok b := by
  cases x with
  | error e => exact iff_of_false nofun fun ⟨_, h, _⟩ ↦ nomatch h
  | ok a => exact ⟨fun h ↦ ⟨a, rfl, h⟩, fun ⟨_, h, hb⟩ ↦ Except.ok.inj h ▸ hb⟩

/-- What is written, when nothing is refused. -/
theorem writeDumpManifest_eq_ok {work name : Plain} {inodes : Inodes} {blocks : Blocks}
    (htree : Treelike inodes blocks) {r : Text × List (Text × List Byte)} :
    writeDumpManifest work name inodes blocks = .ok r ↔
      (∀ k d first aliases, Listed inodes blocks k d first aliases → Described blocks k d) ∧
      (∀ l ∈ (dumpSections work name inodes blocks).lines work name, l.Safe) ∧
      r = (manifestHeader ++ (((dumpSections work name inodes blocks).lines work name).map Line.text).flatten,
        (emptyPayload work name, []) :: (dumpSections work name inodes blocks).payloads) := by
  set s := dumpSections work name inodes blocks with hs
  have hdescribed : (∀ item ∈ (Dump.buildAllPaths inodes blocks ['/']).items, ∀ d, inodes.get? item.1 = some d →
      item.2 ≠ [] → Described blocks item.1 d) ↔
        ∀ k d first aliases, Listed inodes blocks k d first aliases → Described blocks k d := by
    constructor
    · intro h k d first aliases hlisted
      obtain ⟨hitem, -⟩ := hlisted.item work name
      refine h _ hitem d hlisted.inode fun hnil ↦ ?_
      have hsorted := hlisted.sorted
      rw [show (Dump.buildAllPaths inodes blocks ['/']).getD k [] = [] from hnil] at hsorted
      cases hsorted
    · intro h item hitem d hd hne
      have hgetD : (Dump.buildAllPaths inodes blocks ['/']).getD item.1 [] = item.2 := by
        rw [Dict.getD, Dict.get?_eq_some_iff.mpr hitem, Option.getD_some]
      obtain ⟨first, aliases, hsort⟩ : ∃ first aliases, item.2.insertionSort pathLE = first :: aliases := by
        refine List.exists_cons_of_ne_nil fun hnil ↦ hne (List.length_eq_zero_iff.mp ?_)
        rw [← List.length_insertionSort pathLE, hnil, List.length_nil]
      exact h _ d first aliases ⟨hd, hgetD ▸ hsort⟩
  have hdirectories : Restore.sortedDirectories s.directories = .ok s.sortedDirectories :=
    sortedBy_of_nodup Item.path (fun a b hab ↦ (Prod.mk.inj (toLex.injective hab)).2) (nodup_directories htree)
  have hobjects : Restore.sortedObjects s.objects = .ok s.sortedObjects :=
    sortedBy_of_nodup Item.path (fun a b hab ↦ (Prod.mk.inj (toLex.injective hab)).1) (nodup_objects htree)
  have hlinks : Restore.sortedLinks s.links = .ok s.sortedLinks :=
    sortedBy_of_nodup Item.path (fun a b hab ↦ hab) (nodup_links htree)
  have hpadding : sortedPadding s.padding = .ok (s.padding.insertionSort fun a b ↦
      toLex (a.path, a.count) ≤ toLex (b.path, b.count)) :=
    sortedBy_of_nodup Padding.path (fun a b hab ↦ hab) (nodup_padding htree)
  rw [← hdescribed, writeDumpManifest, bind_eq_ok]
  simp only [describeAll_eq_ok]
  constructor
  · rintro ⟨_, ⟨hall, rfl⟩, h⟩
    rw [← dumpSections, ← hs, hdirectories, hobjects, hlinks, hpadding] at h
    simp only [bind_eq_ok, manifestLines_eq_ok, Except.ok.injEq, pure, Except.pure, exists_eq_left'] at h
    obtain ⟨_, ⟨h₁, rfl⟩, _, ⟨h₂, rfl⟩, _, ⟨h₃, rfl⟩, _, ⟨h₄, rfl⟩, _, ⟨h₅, rfl⟩, rfl⟩ := h
    refine ⟨hall, fun l hl ↦ ?_, ?_⟩
    · simp only [Sections.lines, List.mem_append] at hl
      rcases hl with (((hl | hl) | hl) | hl) | hl
      · exact h₁ l hl
      · exact h₂ l hl
      · exact h₃ l hl
      · exact h₄ l hl
      · exact h₅ l hl
    · simp [Sections.lines, Sections.temporary]
  · rintro ⟨hall, hsafe, rfl⟩
    refine ⟨s, ⟨hall, rfl⟩, ?_⟩
    rw [hdirectories, hobjects, hlinks, hpadding]
    simp only [bind_eq_ok, manifestLines_eq_ok, Except.ok.injEq, pure, Except.pure, exists_eq_left']
    simp only [Sections.lines, List.forall_mem_append] at hsafe
    obtain ⟨⟨⟨⟨h₁, h₂⟩, h₃⟩, h₄⟩, h₅⟩ := hsafe
    refine ⟨_, ⟨h₁, rfl⟩, _, ⟨h₂, rfl⟩, _, ⟨h₃, rfl⟩, _, ⟨h₄, rfl⟩, _, ⟨h₅, rfl⟩, ?_⟩
    simp [Sections.lines, Sections.temporary]

end Write

end S8000.Restore
