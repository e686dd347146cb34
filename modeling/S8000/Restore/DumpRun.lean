import S8000.Restore.MemberNames
import S8000.Restore.Rebuilt

namespace S8000.Restore

open Foundation Foundation.Bytes Foundation.Numerals Foundation.Namespace V7
open Dump (Text Dinode Inodes Blocks Resolves direntsOf isDir isDot)

section Lines

variable {work name : Plain} {inodes : Inodes} {blocks : Blocks} {k : ℕ} {d : Dinode}

theorem nul_notMem_objectAux : '\x00' ∉ objectAux work name k d := by
  rw [objectAux]
  split
  · simp only [dumpPayload, List.mem_append, not_or]
    exact ⟨⟨⟨⟨⟨work.2, by decide⟩, name.2⟩, by decide⟩, nul_notMem_zeroPadded 5 k⟩, by decide⟩
  · exact fun hc ↦ (Line.ascii_decimal hc).2 rfl

theorem nul_notMem_emptyPayload : '\x00' ∉ emptyPayload work name := by
  simp only [emptyPayload, List.mem_append, not_or]
  exact ⟨⟨⟨work.2, by decide⟩, name.2⟩, by decide⟩

/-- The characters of a path that a line can hold. -/
def IsPath (t : Text) : Prop := ∀ c ∈ t, c.toNat < 128 ∧ c ≠ '\t' ∧ c ≠ '\n' ∧ c ≠ '\x00'

variable (htree : Treelike inodes blocks)
include htree

/-- The path of a line is one of the dump or a temporary one, and so is the target of a link. -/
theorem mem_lines {l : Line} (hl : l ∈ (dumpSections work name inodes blocks).lines work name) :
    IsPath l.path ∧ (l.aux = ['-'] ∨ (∃ k d, l.aux = objectAux work name k d) ∨ l.aux = emptyPayload work name ∨
      IsPath l.aux) := by
  have htemporary : ∀ path ∈ (dumpSections work name inodes blocks).temporary, IsPath path := by
    intro path hpath
    obtain ⟨p, n, hn, rfl⟩ := (mem_temporary htree).mp hpath
    exact hn.char_absolute htree
  simp only [Sections.lines, List.mem_append, List.mem_map] at hl
  rcases hl with (((⟨x, hx, rfl⟩ | ⟨x, hx, rfl⟩) | ⟨x, hx, rfl⟩) | ⟨path, hpath, rfl⟩) | ⟨path, hpath, rfl⟩
  · obtain ⟨k, d, first, aliases, hlisted, -, rfl⟩ := mem_directories.mp (Sections.mem_sortedDirectories.mp hx)
    obtain ⟨p, rfl, hp⟩ := hlisted.head htree
    exact ⟨htree.char_absolute hp, .inl rfl⟩
  · obtain ⟨k, d, first, aliases, hlisted, -, rfl⟩ := mem_objects.mp (Sections.mem_sortedObjects.mp hx)
    obtain ⟨p, rfl, hp⟩ := hlisted.head htree
    exact ⟨htree.char_absolute hp, .inr (.inl ⟨k, d, rfl⟩)⟩
  · obtain ⟨k, d, first, aliases, hlisted, -, path, hpath, rfl⟩ := mem_links.mp (Sections.mem_sortedLinks.mp hx)
    obtain ⟨p, rfl, hp⟩ := hlisted.head htree
    obtain ⟨q, rfl, hq⟩ := (hlisted.mem htree).mp (List.mem_cons_of_mem _ hpath)
    exact ⟨htree.char_absolute hq, .inr (.inr (.inr (htree.char_absolute hp)))⟩
  · exact ⟨htemporary path hpath, .inr (.inr (.inl rfl))⟩
  · exact ⟨htemporary path hpath, .inl rfl⟩

theorem lines_plain : ∀ l ∈ (dumpSections work name inodes blocks).lines work name, l.Plain := by
  intro l hl
  obtain ⟨hpath, haux⟩ := mem_lines htree hl
  refine ⟨?_, fun hc ↦ (hpath _ hc).2.2.2 rfl⟩
  rcases haux with haux | ⟨k, d, haux⟩ | haux | haux
  · rw [haux]
    decide
  · rw [haux]
    exact nul_notMem_objectAux
  · rw [haux]
    exact nul_notMem_emptyPayload
  · exact fun hc ↦ (haux _ hc).2.2.2 rfl

/-- A tree whose inodes `describe` does not refuse is written. -/
theorem exists_written (hwork : Clean work.val) (hname : Clean name.val)
    (hdescribed : ∀ k d first aliases, Listed inodes blocks k d first aliases → Described blocks k d) :
    ∃ r, writeDumpManifest work name inodes blocks = .ok r := by
  refine ⟨_, (writeDumpManifest_eq_ok htree).mpr ⟨hdescribed, fun l hl ↦ ?_, rfl⟩⟩
  have hclean : ∀ {t}, IsPath t → Clean t := fun h ↦ ⟨fun hc ↦ (h _ hc).2.1 rfl, fun hc ↦ (h _ hc).2.2.1 rfl⟩
  obtain ⟨hpath, haux⟩ := mem_lines htree hl
  refine safe_iff.mpr ⟨?_, hclean hpath⟩
  rcases haux with haux | ⟨k, d, haux⟩ | haux | haux
  · rw [haux]
    exact ⟨by decide, by decide⟩
  · rw [haux, objectAux]
    split
    · simp only [dumpPayload, clean_append]
      exact ⟨⟨⟨⟨⟨hwork, by decide, by decide⟩, hname⟩, by decide, by decide⟩, clean_zeroPadded 5 k⟩, by decide, by decide⟩
    · exact clean_decimal _
  · rw [haux]
    simp only [emptyPayload, clean_append]
    exact ⟨⟨⟨hwork, by decide, by decide⟩, hname⟩, by decide, by decide⟩
  · exact hclean haux

/-- The replay of what was written. -/
theorem restore_written (host : Host) (fs : Fs) {r : Text × List (Text × List Byte)}
    (hwritten : writeDumpManifest work name inodes blocks = .ok r) :
    restore host fs (encode r.1) =
      replay host fs (((dumpSections work name inodes blocks).lines work name).map Line.entry) := by
  obtain ⟨-, hsafe, rfl⟩ := (writeDumpManifest_eq_ok htree).mp hwritten
  rw [restore, readManifest_lines hsafe (lines_plain htree)]

end Lines

section Run

variable {host : Host} {work name : Plain} {inodes : Inodes} {blocks : Blocks} {fs : Fs}

/-- The entries of the first three sections. -/
def dumpEntries (work name : Plain) (inodes : Inodes) (blocks : Blocks) : List Entry :=
  ((dumpSections work name inodes blocks).sortedDirectories ++ (dumpSections work name inodes blocks).sortedObjects ++
    (dumpSections work name inodes blocks).sortedLinks).map fun x ↦ x.line.entry

def paddingEntries (work name : Plain) (inodes : Inodes) (blocks : Blocks) : List Entry :=
  (dumpSections work name inodes blocks).temporary.map fun path ↦ (temporaryLine work name path).entry

def unlinkEntries (work name : Plain) (inodes : Inodes) (blocks : Blocks) : List Entry :=
  (dumpSections work name inodes blocks).temporary.map fun path ↦ (unlinkLine path).entry

theorem entries_lines : ((dumpSections work name inodes blocks).lines work name).map Line.entry =
    dumpEntries work name inodes blocks ++ paddingEntries work name inodes blocks ++
      unlinkEntries work name inodes blocks := by
  simp [Sections.lines, dumpEntries, paddingEntries, unlinkEntries, Function.comp_def]

variable (htree : Treelike inodes blocks)
include htree

theorem temporary_path {path : Text} (hpath : path ∈ (dumpSections work name inodes blocks).temporary) :
    components (encode path) = components path := by
  obtain ⟨p, n, hn, rfl⟩ := (mem_temporary htree).mp hpath
  rw [hn.encode_absolute htree]

theorem directory_of_entry {e : Entry} (he : e ∈ ((dumpSections work name inodes blocks).lines work name).map Line.entry)
    (hd : e.kind = 'd') : ∃ p k, Reached inodes blocks p k ∧ isDir inodes k ∧ components e.path = p := by
  rw [entries_lines, List.mem_append, List.mem_append, dumpEntries, List.map_append, List.map_append,
    List.mem_append, List.mem_append] at he
  rcases he with (((he | he) | he) | he) | he
  · obtain ⟨x, hx, rfl⟩ := List.mem_map.mp he
    obtain ⟨k, d, first, aliases, hlisted, hdir, rfl⟩ := mem_directories.mp (Sections.mem_sortedDirectories.mp hx)
    obtain ⟨p, rfl, hp⟩ := hlisted.head htree
    exact ⟨p, k, hp, hlisted.isDir_iff.mpr hdir,
      (congrArg components (htree.encode_absolute hp)).trans (htree.components_absolute hp)⟩
  · obtain ⟨x, hx, rfl⟩ := List.mem_map.mp he
    obtain ⟨k, d, first, aliases, hlisted, hdir, rfl⟩ := mem_objects.mp (Sections.mem_sortedObjects.mp hx)
    have hkind : (objectKind d).letter = 'd' := hd
    rw [objectKind] at hkind
    split at hkind
    · cases hkind
    · split at hkind <;> cases hkind
  · obtain ⟨x, hx, rfl⟩ := List.mem_map.mp he
    obtain ⟨k, d, first, aliases, -, -, path, -, rfl⟩ := mem_links.mp (Sections.mem_sortedLinks.mp hx)
    cases hd
  · obtain ⟨path, -, rfl⟩ := List.mem_map.mp he
    cases hd
  · obtain ⟨path, -, rfl⟩ := List.mem_map.mp he
    cases hd

variable
  (hdescribed : ∀ k d first aliases, Listed inodes blocks k d first aliases → Described blocks k d)
  (hroomy : Roomy host) (hspace : Spacious host) (hblank : Blank fs)
  (hfiles : ∀ f ∈ (dumpSections work name inodes blocks).payloads, host.files (encode f.1) = some f.2)
include hdescribed hroomy hspace hblank hfiles

/-- Before the padding section the names of the dump are there. -/
theorem planted_dump : ∃ place : Tag Key → ℕ, Orderly (dumpNames inodes blocks work name) [] ∧
    Planted place (dumpLook inodes blocks host work name) (dumpNames inodes blocks work name) []
      ((dumpEntries work name inodes blocks).foldl (step host) ⟨fs, 0⟩).fs ∧
    ((dumpEntries work name inodes blocks).foldl (step host) ⟨fs, 0⟩).failures = 0 := by
  have hsown := sown_dump host htree hdescribed hfiles
  have hstart : Planted (fun _ ↦ rootIno) (dumpLook inodes blocks host work name) [] [] (Replay.mk fs 0).fs :=
    hblank.planted _
  obtain ⟨place, hplanted, hfailures, -⟩ := hsown.run hroomy hspace hstart orderly_nil
  exact ⟨place, hsown.orderly orderly_nil, hplanted, hfailures⟩

/-- After the replay the temporary names are gone, and they alone. -/
theorem planted_replay (hsized : Sized inodes) (hclash : Unclashed inodes blocks)
    (hempty : host.files (encode (emptyPayload work name)) = some []) :
    ∃ (place : Tag Key → ℕ) (gone : List (List Text)),
      Remaining work name inodes blocks (dumpNames inodes blocks work name ++
        (dumpSections work name inodes blocks).temporary.map temporaryMade) gone ∧
      Orderly (dumpNames inodes blocks work name ++
        (dumpSections work name inodes blocks).temporary.map temporaryMade) gone ∧
      Planted place (dumpLook inodes blocks host work name) (dumpNames inodes blocks work name ++
        (dumpSections work name inodes blocks).temporary.map temporaryMade) gone
        (replay host fs (((dumpSections work name inodes blocks).lines work name).map Line.entry)).fs ∧
      (replay host fs (((dumpSections work name inodes blocks).lines work name).map Line.entry)).failures = 0 := by
  obtain ⟨place, ho, hplanted, hfailures⟩ := planted_dump htree hdescribed hroomy hspace hblank hfiles
  have hsown := sown_temporary htree hsized hclash hempty
  obtain ⟨place', hplanted', hfailures', -⟩ := hsown.run hroomy hspace hplanted ho
  have ho' := hsown.orderly ho
  set temps := (dumpSections work name inodes blocks).temporary.map temporaryMade with htemps
  set st := (paddingEntries work name inodes blocks).foldl (step host)
    ((dumpEntries work name inodes blocks).foldl (step host) ⟨fs, 0⟩) with hst
  have hnodup : (temps.map Made.path).Nodup := by
    have hall := ho'.nodup
    rw [List.map_append] at hall
    exact hall.of_append_right
  have hdisjoint : ∀ m ∈ dumpNames inodes blocks work name, m.path ∉ temps.map Made.path := by
    intro m hm hpath
    have hall := ho'.nodup
    rw [List.map_append, List.nodup_append] at hall
    exact hall.2.2 _ (List.mem_map_of_mem hm) _ hpath rfl
  have hes : List.Forall₂ (fun e m ↦ e.kind = 'u' ∧ components e.path = m.path) (unlinkEntries work name inodes blocks)
      temps := by
    rw [htemps, unlinkEntries, List.forall₂_map_left_iff, List.forall₂_map_right_iff, List.forall₂_same]
    exact fun path hpath ↦ ⟨rfl, temporary_path htree hpath⟩
  have hms : ∀ m ∈ temps, m ∈ dumpNames inodes blocks work name ++ temps ∧ m.path ∉ [] ∧ ∃ k, m.key = some k ∧
      ∀ m' ∈ dumpNames inodes blocks work name ++ temps, m'.key = some k → m' = m := by
    intro m hm
    refine ⟨List.mem_append_right _ hm, List.not_mem_nil, .inr m.path, ?_, fun m' hm' hkey ↦ ?_⟩
    · obtain ⟨path, -, rfl⟩ := List.mem_map.mp hm
      rfl
    · rcases List.mem_append.mp hm' with hm' | hm'
      · obtain ⟨q, i, hq, -, rfl⟩ := (mem_dumpNames htree).mp hm'
        rw [htree.dumpName_eq hq] at hkey
        split at hkey
        · cases hkey
        · cases hkey
      · obtain ⟨path, -, rfl⟩ := List.mem_map.mp hm'
        exact List.inj_on_of_nodup_map hnodup hm' hm (Sum.inr.inj (Option.some.inj hkey))
  obtain ⟨gone, hgone, hgoneo, hcleared, hcfailures⟩ := hplanted'.clear host ho' hes hnodup hms
  have hrest : Remaining work name inodes blocks (dumpNames inodes blocks work name ++ temps) gone := by
    intro m
    rw [hgone, List.mem_append, or_iff_left List.not_mem_nil]
    constructor
    · rintro ⟨hm | hm, hlive⟩
      · exact hm
      · exact absurd (List.mem_map_of_mem hm) hlive
    · exact fun hm ↦ ⟨.inl hm, hdisjoint m hm⟩
  have hdirs : ∀ e ∈ (((dumpSections work name inodes blocks).lines work name).map Line.entry).reverse, e.kind = 'd' →
      .directory (components e.path) ∈ tags (dumpNames inodes blocks work name ++ temps) gone := by
    intro e he hd
    obtain ⟨p, k, hp, hk, hpath⟩ := directory_of_entry htree (List.mem_reverse.mp he) hd
    rw [hpath, mem_tags_remaining htree hrest]
    exact ⟨p, k, hp, by rw [htree.tagOf_eq hp, if_pos hk]⟩
  obtain ⟨hreset, hrfailures⟩ := hcleared.reset host hgoneo hdirs
  refine ⟨place', gone, hrest, hgoneo, ?_, ?_⟩
  · rw [replay, entries_lines, List.foldl_append, List.foldl_append, ← entries_lines]
    exact hreset
  · rw [replay, entries_lines, List.foldl_append, List.foldl_append, ← entries_lines]
    exact hrfailures.trans (hcfailures.trans (hfailures'.trans hfailures))

end Run

end S8000.Restore
