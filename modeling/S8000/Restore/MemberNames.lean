import S8000.Restore.Members

namespace S8000.Restore

open Foundation Foundation.Bytes Foundation.Numerals Foundation.Traversal Foundation.Joining
open Dump (Text)

section Places

/-- A name below the file system that it is on. -/
def below (t : Text) : Text := if usrSlash.isPrefixOf t then t.drop usrSlash.length else t

def filesystemOf (t : Text) : Filesystem := if usrSlash.isPrefixOf t then .usr else .root

/-- Where a package has a name installed, on its file system. -/
def packagePlace (t : Text) : Text := '/' :: below t

/-- Where the update has it. -/
def upgradePlace (t : Text) : Text := '/' :: t

def Member.ownName (m : Member) : Text := memberName m.name.val

/-- A name that has to be refused. -/
def BadName (t : Text) : Prop := t = [] ∨ ['.', '.'] ∈ t.splitOn '/'

/-- The members are files, and links to earlier members of the same file system. -/
def LinksBack (members : List Member) : Prop :=
  ∀ before m after, members = before ++ m :: after → m.kind ≠ .other ∧
    ∀ linkname, m.kind = .link linkname → ∃ m' ∈ before, m'.ownName = memberName linkname.val ∧
      filesystemOf m'.ownName = filesystemOf m.ownName

def packageEntries (filesystem : Filesystem) (members : List Member) : List (Text × Installed) :=
  (members.filter fun m ↦ filesystemOf m.ownName = filesystem).filterMap (Member.entry packagePlace)

/-- A package puts every member under its own name. -/
structure PackageInstalls (work : Plain) (fileNumber : ℕ) (members : List Member) : Prop where
  raises : (∃ m ∈ members, BadName m.ownName) → ∃ e, writePackageManifests work fileNumber members = .error e
  installs : (∀ m ∈ members, ¬ BadName m.ownName) →
    ∃ manifests, writePackageManifests work fileNumber members = .ok manifests ∧ ∀ filesystem,
      match manifests.lookup filesystem with
      | none => packageEntries filesystem members = []
      | some (text, _) =>
        Installs (packagePayloads work fileNumber members) text (packageEntries filesystem members)
  apart : ∀ m ∈ members, ∀ m' ∈ members, m.ownName ≠ m'.ownName →
    (filesystemOf m.ownName, packagePlace m.ownName) ≠ (filesystemOf m'.ownName, packagePlace m'.ownName)

/-- The update puts every member under its own name. -/
structure UpgradeInstalls (work : Plain) (members : List Member) : Prop where
  raises : (∃ m ∈ members, BadName m.ownName) → ∃ e, writeUpgradeManifest work members = .error e
  installs : (∀ m ∈ members, ¬ BadName m.ownName) → ∃ text, writeUpgradeManifest work members = .ok text ∧
    Installs (upgradePayloads work 0 members) text (members.filterMap (Member.entry upgradePlace))
  apart : ∀ m ∈ members, ∀ m' ∈ members, m.ownName ≠ m'.ownName →
    upgradePlace m.ownName ≠ upgradePlace m'.ownName

/-- A member that a writer refuses: its path is unsafe, or a field of its line is not clean. -/
def Refused (work : Plain) (relative : Text → Text) (m : Member) : Prop :=
  isUnsafe (relative m.stripped) ∨ ¬ Clean m.stripped ∨ (∃ data, m.kind = .file data) ∧ ¬ Clean work.val

/-- Where a bad name is to be refused some member is; elsewhere none is, and no name begins with a dot. -/
structure KeepsNames (refused : Member → Prop) (members : List Member) : Prop where
  bad : (∃ m ∈ members, BadName m.ownName) → ∃ m ∈ members, refused m
  good : (∀ m ∈ members, ¬ BadName m.ownName) → ∀ m ∈ members, m.ownName.head? ≠ some '.' ∧ ¬ refused m

theorem usrSlash_append {t : Text} (h : usrSlash.isPrefixOf t) : usrSlash ++ below t = t := by
  obtain ⟨rest, rfl⟩ := List.isPrefixOf_iff_prefix.mp h
  rw [below, if_pos h, List.drop_left]

theorem packagePlace_injective {s t : Text} (hsame : filesystemOf s = filesystemOf t)
    (h : packagePlace s = packagePlace t) : s = t := by
  have hbelow : below s = below t := (List.cons.inj h).2
  rw [filesystemOf, filesystemOf] at hsame
  by_cases hs : usrSlash.isPrefixOf s
  · by_cases ht : usrSlash.isPrefixOf t
    · rw [← usrSlash_append hs, ← usrSlash_append ht, hbelow]
    · rw [if_pos hs, if_neg ht] at hsame
      cases hsame
  · by_cases ht : usrSlash.isPrefixOf t
    · rw [if_neg hs, if_pos ht] at hsame
      cases hsame
    · rwa [below, below, if_neg hs, if_neg ht] at hbelow

theorem clean_below {t : Text} : Clean (below t) ↔ Clean t := by
  by_cases h : usrSlash.isPrefixOf t
  · have husr : Clean usrSlash := ⟨by decide, by decide⟩
    rw [← usrSlash_append h, clean_append, usrSlash_append h]
    exact (and_iff_right husr).symm
  · rw [below, if_neg h]

theorem clean_packagePlace (t : Text) : Clean (packagePlace t) ↔ Clean t := clean_slash.trans clean_below

theorem clean_upgradePlace (t : Text) : Clean (upgradePlace t) ↔ Clean t := clean_slash

end Places

section Payloads

theorem readDigits_zeroPadded (width n : ℕ) : readDigits 10 0 (zeroPadded width n) = n :=
  readDigits_padded (by decide) (by decide) _ n

theorem zeroPadded_injective {width n n' : ℕ} (h : zeroPadded width n = zeroPadded width n') : n = n' := by
  rw [← readDigits_zeroPadded width n, h, readDigits_zeroPadded]

theorem clean_zeroPadded (width n : ℕ) : Clean (zeroPadded width n) := by
  refine clean_append.mpr ⟨⟨fun h ↦ ?_, fun h ↦ ?_⟩, clean_toDigits (by decide) le_rfl n⟩
  · exact absurd (List.eq_of_mem_replicate h) (by decide)
  · exact absurd (List.eq_of_mem_replicate h) (by decide)

variable {work : Plain} {fileNumber : ℕ} {filesystem filesystem' : Filesystem} {index index' : ℕ}

theorem packagePayload_injective
    (h : packagePayload work fileNumber filesystem index = packagePayload work fileNumber filesystem' index') :
    filesystem = filesystem' ∧ index = index' := by
  simp only [packagePayload, List.append_assoc, List.append_cancel_left_eq] at h
  cases filesystem <;> cases filesystem'
  · exact ⟨rfl, zeroPadded_injective (by simpa [Filesystem.name] using h)⟩
  · simp [Filesystem.name] at h
  · simp [Filesystem.name] at h
  · exact ⟨rfl, zeroPadded_injective (by simpa [Filesystem.name] using h)⟩

theorem clean_packagePayload :
    Clean (packagePayload work fileNumber filesystem index) ↔ Clean work.val := by
  have hname : Clean filesystem.name := by cases filesystem <;> exact ⟨by decide, by decide⟩
  constructor
  · intro h
    simp only [packagePayload, clean_append] at h
    exact h.1.1.1.1.1.1.1
  · intro h
    simp only [packagePayload, clean_append]
    exact ⟨⟨⟨⟨⟨⟨⟨h, by decide, by decide⟩, clean_zeroPadded 3 fileNumber⟩, by decide, by decide⟩, hname⟩,
      by decide, by decide⟩, clean_zeroPadded 4 index⟩, by decide, by decide⟩

theorem upgradePayload_injective (h : upgradePayload work index = upgradePayload work index') :
    index = index' := by
  simp only [upgradePayload, List.append_assoc, List.append_cancel_left_eq] at h
  exact zeroPadded_injective (by simpa using h)

theorem clean_upgradePayload : Clean (upgradePayload work index) ↔ Clean work.val := by
  simp only [upgradePayload, clean_append]
  constructor
  · exact fun h ↦ h.1.1.1
  · exact fun h ↦ ⟨⟨⟨h, by decide, by decide⟩, clean_zeroPadded 4 index⟩, by decide, by decide⟩

/-- The payloads of a loop are those of later indices. -/
theorem mem_packageFiles {selected : List (Member × Text)} {f : Text × List Byte}
    (h : f ∈ packageFiles work fileNumber filesystem index selected) :
    ∃ i, index ≤ i ∧ f.1 = packagePayload work fileNumber filesystem i := by
  induction selected generalizing index with
  | nil => cases h
  | cons s selected ih =>
    rw [packageFiles] at h
    split at h
    · rcases List.mem_cons.mp h with rfl | h
      · exact ⟨index, le_rfl, rfl⟩
      · obtain ⟨i, hi, hf⟩ := ih h
        exact ⟨i, by omega, hf⟩
    · obtain ⟨i, hi, hf⟩ := ih h
      exact ⟨i, by omega, hf⟩
    · cases h

theorem nodup_packageFiles (selected : List (Member × Text)) :
    ((packageFiles work fileNumber filesystem index selected).map Prod.fst).Nodup := by
  induction selected generalizing index with
  | nil => exact List.nodup_nil
  | cons s selected ih =>
    rw [packageFiles]
    split
    · refine List.nodup_cons.mpr ⟨fun hmem ↦ ?_, ih⟩
      obtain ⟨f, hf, hpath⟩ := List.mem_map.mp hmem
      obtain ⟨i, hi, hf'⟩ := mem_packageFiles hf
      have := (packagePayload_injective (hf'.symm.trans hpath)).2
      omega
    · exact ih
    · exact List.nodup_nil

theorem nodup_packagePayloads (work : Plain) (fileNumber : ℕ) (members : List Member) :
    ((packagePayloads work fileNumber members).map Prod.fst).Nodup := by
  rw [packagePayloads, List.flatMap_cons, List.flatMap_singleton]
  cases select .root members with
  | error _ =>
    cases select .usr members with
    | error _ => exact List.nodup_nil
    | ok selected => exact nodup_packageFiles selected
  | ok selected =>
    cases select .usr members with
    | error _ =>
      rw [List.append_nil]
      exact nodup_packageFiles selected
    | ok selected' =>
      rw [List.map_append, List.nodup_append]
      refine ⟨nodup_packageFiles selected, nodup_packageFiles selected', fun a ha b hb hab ↦ ?_⟩
      obtain ⟨f, hf, rfl⟩ := List.mem_map.mp ha
      obtain ⟨f', hf', rfl⟩ := List.mem_map.mp hb
      obtain ⟨i, -, hi⟩ := mem_packageFiles hf
      obtain ⟨i', -, hi'⟩ := mem_packageFiles hf'
      have hsame := packagePayload_injective (hi.symm.trans (hab.trans hi'))
      exact absurd hsame.1 (by decide)

theorem mem_upgradePayloads {members : List Member} {f : Text × List Byte}
    (h : f ∈ upgradePayloads work index members) : ∃ i, index ≤ i ∧ f.1 = upgradePayload work i := by
  induction members generalizing index with
  | nil => cases h
  | cons m members ih =>
    rw [upgradePayloads] at h
    split at h
    · rcases List.mem_cons.mp h with rfl | h
      · exact ⟨index, le_rfl, rfl⟩
      · obtain ⟨i, hi, hf⟩ := ih h
        exact ⟨i, by omega, hf⟩
    · obtain ⟨i, hi, hf⟩ := ih h
      exact ⟨i, by omega, hf⟩
    · cases h

theorem nodup_upgradePayloads (members : List Member) :
    ((upgradePayloads work index members).map Prod.fst).Nodup := by
  induction members generalizing index with
  | nil => exact List.nodup_nil
  | cons m members ih =>
    rw [upgradePayloads]
    split
    · refine List.nodup_cons.mpr ⟨fun hmem ↦ ?_, ih⟩
      obtain ⟨f, hf, hpath⟩ := List.mem_map.mp hmem
      obtain ⟨i, hi, hf'⟩ := mem_upgradePayloads hf
      have := upgradePayload_injective (hf'.symm.trans hpath)
      omega
    · exact ih
    · exact List.nodup_nil

end Payloads

section Lines

variable {work : Plain} {fileNumber : ℕ} {filesystem : Filesystem}

theorem linkTarget_spec {paths : Dict Text Text} (hpaths : ∀ k v, paths.get? k = some v → v = packagePlace k)
    (linkname : Text) :
    (Clean (lstripDots linkname) → Clean (linkTarget filesystem paths linkname)) ∧
      (filesystemOf (lstripDots linkname) = filesystem →
        linkTarget filesystem paths linkname = packagePlace (lstripDots linkname)) := by
  rw [linkTarget]
  cases hget : paths.get? (lstripDots linkname) with
  | some v =>
    rw [Option.getD_some, hpaths _ v hget]
    exact ⟨(clean_packagePlace _).mpr, fun _ ↦ rfl⟩
  | none =>
    rw [Option.getD_none]
    constructor
    · intro h
      rw [clean_slash]
      split
      · exact h.of_subset (List.drop_subset _ _)
      · exact h
    · intro h
      rw [packagePlace, below]
      by_cases hprefix : usrSlash.isPrefixOf (lstripDots linkname)
      · rw [filesystemOf, if_pos hprefix] at h
        rw [if_pos ⟨h.symm, hprefix⟩, if_pos hprefix]
      · rw [if_neg fun hboth ↦ hprefix hboth.2, if_neg hprefix]

variable (work fileNumber) in
/-- The loop over the members of one file system writes a line for each of them. -/
theorem packageLines_written {selected : List (Member × Text)}
    (hselected : ∀ s ∈ selected, s.1.kind ≠ .other ∧ s.2 = packagePlace s.1.stripped)
    {paths : Dict Text Text} (hpaths : ∀ k v, paths.get? k = some v → v = packagePlace k) {index : ℕ}
    {files : List (Text × List Byte)}
    (hfiles : ∀ f ∈ packageFiles work fileNumber filesystem index selected, f ∈ files) :
    ∃ ls : List Line, packageLines work fileNumber filesystem paths index selected = ls.map .ok ∧
      List.Forall₂ (fun s l ↦ Written work files packagePlace (filesystemOf · = filesystem) s.1 l) selected ls := by
  induction selected generalizing paths index with
  | nil => exact ⟨[], rfl, .nil⟩
  | cons s selected ih =>
    obtain ⟨m, path⟩ := s
    obtain ⟨⟨hkind, hpath⟩, hrest⟩ := List.forall_mem_cons.mp hselected
    obtain rfl : path = packagePlace m.stripped := hpath
    rw [packageFiles] at hfiles
    rw [packageLines]
    cases hk : m.kind with
    | file data =>
      simp only [hk] at hfiles ⊢
      have hpaths' : ∀ k v, (paths.set m.stripped (packagePlace m.stripped)).get? k = some v →
          v = packagePlace k := by
        intro k v hv
        rw [Dict.get?_set] at hv
        split at hv
        · rename_i hmk
          rw [← hmk, ← Option.some.inj hv]
        · exact hpaths k v hv
      obtain ⟨ls, hls, hwritten⟩ := ih hrest hpaths' fun f hf ↦ hfiles f (List.mem_cons_of_mem _ hf)
      refine ⟨_ :: ls, by rw [hls, List.map_cons], .cons ⟨rfl, ?_, ?_, hkind⟩ hwritten⟩
      · intro data' hdata
        rw [hk, MemberKind.file.injEq] at hdata
        subst hdata
        exact ⟨rfl, hfiles _ List.mem_cons_self, clean_packagePayload⟩
      · intro linkname hlink
        rw [hk] at hlink
        cases hlink
    | link linkname =>
      simp only [hk] at hfiles ⊢
      obtain ⟨ls, hls, hwritten⟩ := ih hrest hpaths hfiles
      refine ⟨_ :: ls, by rw [hls, List.map_cons], .cons ⟨rfl, ?_, ?_, hkind⟩ hwritten⟩
      · intro data hdata
        rw [hk] at hdata
        cases hdata
      · intro linkname' hlink
        rw [hk, MemberKind.link.injEq] at hlink
        subst hlink
        exact ⟨rfl, linkTarget_spec hpaths linkname.val⟩
    | other => exact absurd hk hkind

variable (work) in
/-- The loops over the members of the update write a line for each of them, the links at the end. -/
theorem upgradeLines_written {members : List Member} (hmembers : ∀ m ∈ members, m.kind ≠ .other) {index : ℕ}
    {files : List (Text × List Byte)} (hfiles : ∀ f ∈ upgradePayloads work index members, f ∈ files) :
    ∃ ls ls' : List Line, upgradeFiles work index members ++ members.filterMap upgradeLink = ls.map .ok ∧ ls.Perm ls' ∧
      List.Forall₂ (Written work files upgradePlace fun _ ↦ True) members ls' := by
  suffices h : ∃ fs ks ls' : List Line, upgradeFiles work index members = fs.map .ok ∧
      members.filterMap upgradeLink = ks.map .ok ∧ (fs ++ ks).Perm ls' ∧
      List.Forall₂ (Written work files upgradePlace fun _ ↦ True) members ls' by
    obtain ⟨fs, ks, ls', hfs, hks, hperm, hwritten⟩ := h
    exact ⟨fs ++ ks, ls', by rw [hfs, hks, List.map_append], hperm, hwritten⟩
  induction members generalizing index with
  | nil => exact ⟨[], [], [], rfl, rfl, .nil, .nil⟩
  | cons m members ih =>
    obtain ⟨hkind, hmembers⟩ := List.forall_mem_cons.mp hmembers
    rw [upgradePayloads] at hfiles
    rw [upgradeFiles, List.filterMap_cons]
    cases hk : m.kind with
    | file data =>
      simp only [hk] at hfiles ⊢
      obtain ⟨fs, ks, ls', hfs, hks, hperm, hwritten⟩ :=
        ih hmembers fun f hf ↦ hfiles f (List.mem_cons_of_mem _ hf)
      have hnone : upgradeLink m = none := by rw [upgradeLink, hk]
      refine ⟨_ :: fs, ks, _ :: ls', by rw [hfs, List.map_cons], by simp only [hnone]; exact hks,
        hperm.cons _, .cons ⟨rfl, ?_, ?_, hkind⟩ hwritten⟩
      · intro data' hdata
        rw [hk, MemberKind.file.injEq] at hdata
        subst hdata
        exact ⟨rfl, hfiles _ List.mem_cons_self, clean_upgradePayload⟩
      · intro linkname hlink
        rw [hk] at hlink
        cases hlink
    | link linkname =>
      simp only [hk] at hfiles ⊢
      obtain ⟨fs, ks, ls', hfs, hks, hperm, hwritten⟩ := ih hmembers hfiles
      have hsome : upgradeLink m =
          some (.ok ⟨.link, m.metadata, '/' :: lstripDots linkname.val, upgradePath m⟩) := by
        rw [upgradeLink, hk]
      refine ⟨fs, _ :: ks, _ :: ls', hfs, by simp only [hsome]; rw [hks, List.map_cons],
        List.perm_middle.trans (hperm.cons _), .cons ⟨rfl, ?_, ?_, hkind⟩ hwritten⟩
      · intro data hdata
        rw [hk] at hdata
        cases hdata
      · intro linkname' hlink
        rw [hk, MemberKind.link.injEq] at hlink
        subst hlink
        exact ⟨rfl, clean_slash.mpr, fun _ ↦ rfl⟩
    | other => exact absurd hk hkind

end Lines

end S8000.Restore
