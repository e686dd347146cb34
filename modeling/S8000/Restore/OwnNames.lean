import S8000.Restore.MemberNames

namespace S8000.Restore

open Foundation Foundation.Bytes Foundation.Traversal
open Dump (Text)

section Sums

/-- The lengths of the names can be counted at their places. -/
theorem sum_places (f : Member → Text) (members : List Member) :
    ((members.filter fun m ↦ filesystemOf (f m) = .root).map fun m ↦ (packagePlace (f m)).length).sum +
        ((members.filter fun m ↦ filesystemOf (f m) = .usr).map fun m ↦ (packagePlace (f m)).length + 4).sum =
      (members.map fun m ↦ (f m).length + 1).sum := by
  induction members with
  | nil => rfl
  | cons m members ih =>
    rw [List.map_cons, List.sum_cons]
    by_cases h : usrSlash.isPrefixOf (f m)
    · have husr : filesystemOf (f m) = .usr := if_pos h
      have hlen : (packagePlace (f m)).length + 4 = (f m).length + 1 := by
        have happend := congrArg List.length (usrSlash_append h)
        rw [List.length_append] at happend
        rw [packagePlace, List.length_cons]
        simp only [usrSlash, List.length_cons, List.length_nil] at happend
        omega
      rw [List.filter_cons_of_neg (by simp [husr]), List.filter_cons_of_pos (by simp [husr]), List.map_cons,
        List.sum_cons, hlen]
      omega
    · have hroot : filesystemOf (f m) = .root := if_neg h
      have hlen : (packagePlace (f m)).length = (f m).length + 1 := by
        rw [packagePlace, List.length_cons, below, if_neg h]
      rw [List.filter_cons_of_pos (by simp [hroot]), List.filter_cons_of_neg (by simp [hroot]), List.map_cons,
        List.sum_cons, hlen]
      omega

theorem eq_of_sum_eq {α : Type} {f g : α → ℕ} {l : List α} (hle : ∀ a ∈ l, f a ≤ g a)
    (hsum : (l.map f).sum = (l.map g).sum) : ∀ a ∈ l, f a = g a := by
  induction l with
  | nil => exact fun a ha ↦ absurd ha List.not_mem_nil
  | cons a l ih =>
    obtain ⟨ha, hl⟩ := List.forall_mem_cons.mp hle
    have hrest : (l.map f).sum ≤ (l.map g).sum := List.sum_le_sum hl
    rw [List.map_cons, List.map_cons, List.sum_cons, List.sum_cons] at hsum
    exact List.forall_mem_cons.mpr ⟨by omega, ih hl (by omega)⟩

/-- When nothing is lost from the names together, nothing is lost from any of them. -/
theorem names_kept_of_sum {members : List Member}
    (h : (members.map fun m ↦ m.stripped.length + 1).sum = (members.map fun m ↦ m.ownName.length + 1).sum) :
    ∀ m ∈ members, m.ownName.head? ≠ some '.' := by
  intro m hm
  have hstripped : ∀ m : Member, m.stripped = lstripDots m.ownName := fun m ↦
    (lstripDots_memberName m.name.val).symm
  have hle : ∀ m ∈ members, m.stripped.length + 1 ≤ m.ownName.length + 1 := by
    intro m _
    rw [hstripped]
    exact Nat.succ_le_succ (length_lstripDots_le _)
  have hsame := eq_of_sum_eq hle h m hm
  rw [hstripped, Nat.add_right_cancel_iff] at hsame
  exact length_lstripDots_eq_iff.mp hsame

theorem stripped_eq_ownName {m : Member} (h : m.ownName.head? ≠ some '.') : m.stripped = m.ownName := by
  have hkept := lstripDots_of_head h (head?_memberName m.name.val)
  rwa [Member.ownName, lstripDots_memberName] at hkept

theorem map_some_filterMap {α β : Type} {f : α → Option β} {l : List α} (h : ∀ a ∈ l, f a ≠ none) :
    (l.filterMap f).map some = l.map f := by
  induction l with
  | nil => rfl
  | cons a l ih =>
    obtain ⟨ha, hl⟩ := List.forall_mem_cons.mp h
    obtain ⟨b, hb⟩ := Option.ne_none_iff_exists'.mp ha
    rw [List.filterMap_cons, hb, List.map_cons, List.map_cons, ih hl, hb]

theorem entry_ne_none {place : Text → Text} {m : Member} (h : m.kind ≠ .other) : m.entry place ≠ none := by
  rw [Member.entry]
  cases hk : m.kind with
  | other => exact absurd hk h
  | _ => exact Option.some_ne_none _

theorem map_fst_entries {place : Text → Text} {members : List Member} (h : ∀ m ∈ members, m.kind ≠ .other) :
    (members.filterMap (Member.entry place)).map Prod.fst = members.map fun m ↦ place m.ownName := by
  induction members with
  | nil => rfl
  | cons m members ih =>
    obtain ⟨hm, hrest⟩ := List.forall_mem_cons.mp h
    rw [List.filterMap_cons, Member.entry, List.map_cons]
    cases hk : m.kind with
    | other => exact absurd hk hm
    | _ => exact congrArg _ (ih hrest)

end Sums

section Domain

variable {members : List Member} {m : Member}

theorem LinksBack.kind (h : LinksBack members) (hm : m ∈ members) : m.kind ≠ .other := by
  obtain ⟨before, after, hsplit⟩ := List.append_of_mem hm
  exact (h before m after hsplit).1

theorem LinksBack.target (h : LinksBack members) (hm : m ∈ members) {linkname : Plain}
    (hk : m.kind = .link linkname) : ∃ m' ∈ members, m'.ownName = memberName linkname.val ∧
      filesystemOf m'.ownName = filesystemOf m.ownName := by
  obtain ⟨before, after, hsplit⟩ := List.append_of_mem hm
  obtain ⟨m', hm', htarget⟩ := (h before m after hsplit).2 linkname hk
  exact ⟨m', hsplit ▸ List.mem_append_left _ hm', htarget⟩

/-- The target of a link is stripped as its own member is. -/
theorem LinksBack.stripped (h : LinksBack members) (hm : m ∈ members) {linkname : Plain}
    (hk : m.kind = .link linkname) : ∃ m' ∈ members, m'.stripped = lstripDots linkname.val := by
  obtain ⟨m', hm', hname, -⟩ := h.target hm hk
  refine ⟨m', hm', ?_⟩
  rw [← lstripDots_memberName linkname.val, ← hname, Member.ownName, lstripDots_memberName]
  rfl

/-- What a writer gets right, when it accepts just the members that are not refused and its entries
are right just when no name begins with a dot. -/
theorem keepsNames_iff {refused : Member → Prop} {accepts entries : Prop}
    (haccepts : accepts ↔ ∀ m ∈ members, ¬ refused m)
    (hentries : accepts → (entries ↔ ∀ m ∈ members, m.ownName.head? ≠ some '.')) :
    ((∃ m ∈ members, BadName m.ownName) → ¬ accepts) ∧
        ((∀ m ∈ members, ¬ BadName m.ownName) → accepts ∧ entries) ↔ KeepsNames refused members := by
  constructor
  · rintro ⟨hbad, hgood⟩
    refine ⟨fun h ↦ ?_, fun h m hm ↦ ?_⟩
    · by_contra hnone
      refine hbad h (haccepts.mpr fun m hm hr ↦ hnone ⟨m, hm, hr⟩)
    · obtain ⟨hok, hright⟩ := hgood h
      exact ⟨(hentries hok).mp hright m hm, haccepts.mp hok m hm⟩
  · rintro ⟨hbad, hgood⟩
    refine ⟨fun h hok ↦ ?_, fun h ↦ ?_⟩
    · obtain ⟨m, hm, hr⟩ := hbad h
      exact haccepts.mp hok m hm hr
    · have hok := haccepts.mpr fun m hm ↦ (hgood h m hm).2
      exact ⟨hok, (hentries hok).mpr fun m hm ↦ (hgood h m hm).1⟩

end Domain

section Results

variable {work : Plain} {files : List (Text × List Byte)} {place : Text → Text} {on : Text → Prop}
  {ms members : List Member} {ls : List Line} {relative : Text → Text}

theorem clean_of_lines (h : List.Forall₂ (Written work files place on) ms ls)
    (hplace : ∀ t, Clean (place t) ↔ Clean t) (hls : ∀ l ∈ ls, Clean l.aux ∧ Clean l.path) :
    ∀ m ∈ ms, Clean m.stripped ∧ ∀ data, m.kind = .file data → Clean work.val := by
  induction h with
  | nil => exact fun m hm ↦ absurd hm List.not_mem_nil
  | @cons m l ms ls hl _ ih =>
    obtain ⟨⟨haux, hpath⟩, hrest⟩ := List.forall_mem_cons.mp hls
    refine List.forall_mem_cons.mpr ⟨⟨?_, fun data hk ↦ ?_⟩, ih hrest⟩
    · rwa [hl.path, hplace] at hpath
    · exact (hl.file hk).2.2.mp haux

theorem lines_clean (h : List.Forall₂ (Written work files place on) ms ls)
    (hplace : ∀ t, Clean (place t) ↔ Clean t) (hlinks : LinksBack members) (hsub : ms ⊆ members)
    (hms : ∀ m ∈ members, ¬ Refused work relative m) : ∀ l ∈ ls, Clean l.aux ∧ Clean l.path := by
  have hclean : ∀ m ∈ members, Clean m.stripped := by
    intro m hm
    by_contra hdirty
    exact hms m hm (.inr (.inl hdirty))
  induction h with
  | nil => exact fun l hl ↦ absurd hl List.not_mem_nil
  | @cons m l ms ls hl _ ih =>
    have hm : m ∈ members := hsub List.mem_cons_self
    refine List.forall_mem_cons.mpr ⟨hl.clean hplace (hclean m hm) (fun data hk ↦ ?_) fun linkname hk ↦ ?_,
      ih fun m' hm' ↦ hsub (List.mem_cons_of_mem m hm')⟩
    · by_contra hdirty
      exact hms m hm (.inr (.inr ⟨⟨data, hk⟩, hdirty⟩))
    · obtain ⟨m', hm', hsame⟩ := hlinks.stripped hm hk
      exact hsame ▸ hclean m' hm'

/-- When no name begins with a dot, every line is the entry of its member. -/
theorem installed_lines (h : List.Forall₂ (Written work files place on) ms ls)
    (hfiles : (files.map Prod.fst).Nodup) (hlinks : LinksBack members) (hsub : ms ⊆ members)
    (hnames : ∀ m ∈ members, m.ownName.head? ≠ some '.')
    (hon : ∀ m ∈ ms, ∀ m' ∈ members, filesystemOf m'.ownName = filesystemOf m.ownName → on m'.ownName) :
    ls.map (Line.installed files) = (ms.filterMap (Member.entry place)).map some := by
  rw [map_some_filterMap fun m hm ↦ entry_ne_none (hlinks.kind (hsub hm))]
  induction h with
  | nil => rfl
  | @cons m l ms ls hl _ ih =>
    have hm : m ∈ members := hsub List.mem_cons_self
    rw [List.map_cons, List.map_cons, ih (fun m' hm' ↦ hsub (List.mem_cons_of_mem m hm'))
      fun m' hm' ↦ hon m' (List.mem_cons_of_mem m hm')]
    congr 1
    refine hl.installed hfiles (stripped_eq_ownName (hnames m hm)) fun linkname hk ↦ ?_
    obtain ⟨m', hm', hname, hsame⟩ := hlinks.target hm hk
    have hstripped : lstripDots linkname.val = memberName linkname.val := by
      rw [← lstripDots_memberName, ← hname]
      exact lstripDots_of_head (hnames m' hm') (head?_memberName m'.name.val)
    refine ⟨hstripped, ?_⟩
    rw [hstripped, ← hname]
    exact hon m List.mem_cons_self m' hm' hsame

theorem paths_of_lines (h : List.Forall₂ (Written work files place on) ms ls) :
    ls.map Line.path = ms.map fun m ↦ place m.stripped := by
  induction h with
  | nil => rfl
  | cons hl _ ih => rw [List.map_cons, List.map_cons, ih, hl.path]

theorem kinds_of_lines (h : List.Forall₂ (Written work files place on) ms ls) :
    ∀ l ∈ ls, l.kind ≠ .directory := by
  induction h with
  | nil => exact fun l hl ↦ absurd hl List.not_mem_nil
  | cons hl _ ih => exact List.forall_mem_cons.mpr ⟨hl.kind_ne, ih⟩

end Results

section Upgrade

variable {work : Plain} {members : List Member}

theorem writeUpgradeManifest_eq (hne : members ≠ []) (hsafe : ∀ m ∈ members, ¬ isUnsafe m.stripped) :
    writeUpgradeManifest work members =
      writeLines (directoryLines (directoryTimeOf members) (members.map upgradePath) ++
        (upgradeFiles work 0 members ++ members.filterMap upgradeLink)) := by
  have hnone : members.find? (isUnsafe ·.stripped) = none := by
    rw [List.find?_eq_none]
    exact fun m hm ↦ by simpa using hsafe m hm
  simp only [writeUpgradeManifest, hnone, if_neg hne, bind, Except.bind]

theorem safe_of_writeUpgradeManifest {text : Text} (h : writeUpgradeManifest work members = .ok text) :
    members ≠ [] ∧ ∀ m ∈ members, ¬ isUnsafe m.stripped := by
  cases hfind : members.find? (isUnsafe ·.stripped) with
  | some m =>
    simp [writeUpgradeManifest, hfind, throw, throwThe, MonadExceptOf.throw, bind, Except.bind] at h
  | none =>
    rw [List.find?_eq_none] at hfind
    refine ⟨fun hnil ↦ ?_, fun m hm ↦ by simpa using hfind m hm⟩
    subst hnil
    simp [writeUpgradeManifest, throw, throwThe, MonadExceptOf.throw, bind, Except.bind] at h

variable (work) in
/-- What the update writes, when it writes. -/
theorem upgrade_lines (hlinks : LinksBack members) (hne : members ≠ [])
    (hsafe : ∀ m ∈ members, ¬ isUnsafe m.stripped) : ∃ ls ls' : List Line,
      writeUpgradeManifest work members =
        writeLines (directoryLines (directoryTimeOf members) (members.map upgradePath) ++ ls.map .ok) ∧
      ls.Perm ls' ∧ List.Forall₂ (Written work (upgradePayloads work 0 members) upgradePlace fun _ ↦ True)
        members ls' ∧ ls'.map Line.path = members.map upgradePath := by
  obtain ⟨ls, ls', hls, hperm, hwritten⟩ := upgradeLines_written work
    (fun m hm ↦ hlinks.kind hm) (fun f (hf : f ∈ upgradePayloads work 0 members) ↦ hf)
  exact ⟨ls, ls', by rw [writeUpgradeManifest_eq hne hsafe, hls], hperm, hwritten, paths_of_lines hwritten⟩

theorem upgrade_accepts_iff (hlinks : LinksBack members) (hne : members ≠ []) :
    (∃ text, writeUpgradeManifest work members = .ok text) ↔ ∀ m ∈ members, ¬ Refused work id m := by
  have hcover : ∀ {ls ls' : List Line}, ls.Perm ls' → ls'.map Line.path = members.map upgradePath →
      ∀ path ∈ members.map upgradePath, ∃ l ∈ ls, l.path = path := by
    intro ls ls' hperm hpaths path hpath
    rw [← hpaths] at hpath
    obtain ⟨l, hl, rfl⟩ := List.mem_map.mp hpath
    exact ⟨l, hperm.mem_iff.mpr hl, rfl⟩
  constructor
  · rintro ⟨text, h⟩ m hm
    obtain ⟨-, hsafe⟩ := safe_of_writeUpgradeManifest h
    obtain ⟨ls, ls', hls, hperm, hwritten, hpaths⟩ := upgrade_lines work hlinks hne hsafe
    have hclean := (writeMembers_isOk_iff (hcover hperm hpaths)).mp ⟨text, hls ▸ h⟩
    have hmembers := clean_of_lines hwritten clean_upgradePlace fun l hl ↦ hclean l (hperm.mem_iff.mpr hl)
    rintro (hrefused | hdirty | ⟨⟨data, hk⟩, hdirty⟩)
    · exact hsafe m hm hrefused
    · exact hdirty (hmembers m hm).1
    · exact hdirty ((hmembers m hm).2 data hk)
  · intro h
    have hsafe : ∀ m ∈ members, ¬ isUnsafe m.stripped := fun m hm hrefused ↦ h m hm (.inl hrefused)
    obtain ⟨ls, ls', hls, hperm, hwritten, hpaths⟩ := upgrade_lines work hlinks hne hsafe
    rw [hls]
    refine (writeMembers_isOk_iff (hcover hperm hpaths)).mpr fun l hl ↦ ?_
    exact lines_clean hwritten clean_upgradePlace hlinks (List.Subset.refl members) h l (hperm.mem_iff.mp hl)

theorem upgrade_entries_iff (hlinks : LinksBack members) {text : Text}
    (h : writeUpgradeManifest work members = .ok text) :
    Installs (upgradePayloads work 0 members) text (members.filterMap (Member.entry upgradePlace)) ↔
      ∀ m ∈ members, m.ownName.head? ≠ some '.' := by
  obtain ⟨hne, hsafe⟩ := safe_of_writeUpgradeManifest h
  obtain ⟨ls, ls', hls, hperm, hwritten, hpaths⟩ := upgrade_lines work hlinks hne hsafe
  have hmember : ∀ l ∈ ls, l.kind ≠ .directory ∧ l.path ∈ members.map upgradePath := by
    intro l hl
    have hl' := hperm.mem_iff.mp hl
    exact ⟨kinds_of_lines hwritten l hl', hpaths ▸ List.mem_map_of_mem hl'⟩
  rw [installs_iff (hls ▸ h) hmember]
  constructor
  · intro hentries
    have hsame := paths_perm hentries
    rw [map_fst_entries fun m hm ↦ hlinks.kind hm] at hsame
    have hlengths := (((hperm.map Line.path).symm.trans hsame).map List.length).sum_eq
    rw [paths_of_lines hwritten, List.map_map, List.map_map] at hlengths
    exact names_kept_of_sum hlengths
  · intro hnames
    rw [← installed_lines hwritten (nodup_upgradePayloads members) hlinks (List.Subset.refl members) hnames
      fun _ _ _ _ _ ↦ trivial]
    exact hperm.map _

end Upgrade

section Package

variable {work : Plain} {fileNumber : ℕ} {filesystem : Filesystem} {members : List Member}

/-- The members that the writer puts on a file system. -/
def onFilesystem (filesystem : Filesystem) (members : List Member) : List Member :=
  members.filter fun m ↦ filesystemOf m.stripped = filesystem

theorem relativeTo_eq (filesystem : Filesystem) (m : Member) :
    relativeTo filesystem m = if filesystemOf m.stripped = filesystem then some (below m.stripped) else none := by
  rw [relativeTo, filesystemOf, below]
  by_cases h : usrSlash.isPrefixOf m.stripped <;> cases filesystem <;> simp [h]

theorem select_eq_ok {selected : List (Member × Text)} :
    select filesystem members = .ok selected ↔
      (∀ m ∈ onFilesystem filesystem members, ¬ isUnsafe (below m.stripped)) ∧
        selected = (onFilesystem filesystem members).map fun m ↦ (m, packagePlace m.stripped) := by
  have hlist : (members.filterMap fun m ↦ (relativeTo filesystem m).map (m, ·)) =
      (onFilesystem filesystem members).map fun m ↦ (m, below m.stripped) := by
    induction members with
    | nil => rfl
    | cons m members ih =>
      rw [List.filterMap_cons, relativeTo_eq, ih]
      by_cases h : filesystemOf m.stripped = filesystem <;> simp [onFilesystem, h]
  rw [select, hlist]
  refine mapM_guard_eq_ok.trans ?_
  rw [List.forall_mem_map, List.map_map]
  rfl

theorem onFilesystem_subset : onFilesystem filesystem members ⊆ members := List.filter_subset_self _

theorem writePackageManifest_eq (hsafe : ∀ m ∈ onFilesystem filesystem members, ¬ isUnsafe (below m.stripped)) :
    writePackageManifest work fileNumber members filesystem =
      if onFilesystem filesystem members = [] then .ok none
      else (packageManifest work fileNumber filesystem
          ((onFilesystem filesystem members).map fun m ↦ (m, packagePlace m.stripped))).map fun text ↦
        some (text, (onFilesystem filesystem members).length) := by
  have hselect := select_eq_ok.mpr ⟨hsafe, rfl⟩
  rw [writePackageManifest, hselect]
  simp only [bind, Except.bind, List.map_eq_nil_iff, List.length_map]
  split
  · rfl
  · cases packageManifest work fileNumber filesystem
      ((onFilesystem filesystem members).map fun m ↦ (m, packagePlace m.stripped)) <;> rfl

theorem safe_of_writePackageManifest {r : Option (Text × ℕ)}
    (h : writePackageManifest work fileNumber members filesystem = .ok r) :
    ∀ m ∈ onFilesystem filesystem members, ¬ isUnsafe (below m.stripped) := by
  rw [writePackageManifest] at h
  cases hselect : select filesystem members with
  | error e =>
    rw [hselect] at h
    cases h
  | ok selected => exact (select_eq_ok.mp hselect).1

variable (work fileNumber) in
theorem package_lines (hlinks : LinksBack members)
    (hsafe : ∀ m ∈ onFilesystem filesystem members, ¬ isUnsafe (below m.stripped)) : ∃ ls : List Line,
      packageManifest work fileNumber filesystem
          ((onFilesystem filesystem members).map fun m ↦ (m, packagePlace m.stripped)) =
        writeLines (directoryLines (directoryTimeOf (onFilesystem filesystem members))
          ((onFilesystem filesystem members).map fun m ↦ packagePlace m.stripped) ++ ls.map .ok) ∧
      List.Forall₂ (Written work (packagePayloads work fileNumber members) packagePlace
        (filesystemOf · = filesystem)) (onFilesystem filesystem members) ls := by
  have hselect := select_eq_ok.mpr ⟨hsafe, rfl⟩
  have hfiles : ∀ f ∈ packageFiles work fileNumber filesystem 0
      ((onFilesystem filesystem members).map fun m ↦ (m, packagePlace m.stripped)),
      f ∈ packagePayloads work fileNumber members := by
    intro f hf
    refine List.mem_flatMap.mpr ⟨filesystem, by cases filesystem <;> simp, ?_⟩
    rw [hselect]
    exact hf
  have hselected : ∀ s ∈ (onFilesystem filesystem members).map fun m ↦ (m, packagePlace m.stripped),
      s.1.kind ≠ .other ∧ s.2 = packagePlace s.1.stripped := by
    intro s hs
    obtain ⟨m, hm, rfl⟩ := List.mem_map.mp hs
    exact ⟨hlinks.kind (onFilesystem_subset hm), rfl⟩
  obtain ⟨ls, hls, hwritten⟩ := packageLines_written work fileNumber hselected
    (fun k v (hv : (∅ : Dict Text Text).get? k = some v) ↦ by cases hv) hfiles
  rw [List.forall₂_map_left_iff] at hwritten
  refine ⟨ls, ?_, hwritten⟩
  rw [packageManifest, hls, List.map_map, List.map_map]
  have hid : (onFilesystem filesystem members).map (Prod.fst ∘ fun m ↦ (m, packagePlace m.stripped)) =
      onFilesystem filesystem members := List.map_id _
  rw [hid]
  rfl

theorem package_accepts (hlinks : LinksBack members) (h : ∀ m ∈ members, ¬ Refused work below m)
    (fileNumber : ℕ) (filesystem : Filesystem) :
    ∃ r, writePackageManifest work fileNumber members filesystem = .ok r := by
  have hsafe : ∀ m ∈ onFilesystem filesystem members, ¬ isUnsafe (below m.stripped) := fun m hm hrefused ↦
    h m (onFilesystem_subset hm) (.inl hrefused)
  rw [writePackageManifest_eq hsafe]
  split
  · exact ⟨_, rfl⟩
  · obtain ⟨ls, hls, hwritten⟩ := package_lines work fileNumber hlinks hsafe
    have hcover : ∀ path ∈ (onFilesystem filesystem members).map fun m ↦ packagePlace m.stripped,
        ∃ l ∈ ls, l.path = path := fun path hpath ↦ by
      rw [← paths_of_lines hwritten] at hpath
      exact List.mem_map.mp hpath
    obtain ⟨text, htext⟩ := (writeMembers_isOk_iff hcover).mpr
      (lines_clean hwritten clean_packagePlace hlinks onFilesystem_subset h)
    exact ⟨_, by rw [hls, htext]; rfl⟩

theorem not_refused_of_package (hlinks : LinksBack members) {r : Option (Text × ℕ)}
    (h : writePackageManifest work fileNumber members filesystem = .ok r) :
    ∀ m ∈ onFilesystem filesystem members, ¬ Refused work below m := by
  intro m hm
  have hsafe := safe_of_writePackageManifest h
  have hne : onFilesystem filesystem members ≠ [] := List.ne_nil_of_mem hm
  obtain ⟨ls, hls, hwritten⟩ := package_lines work fileNumber hlinks hsafe
  rw [writePackageManifest_eq hsafe, if_neg hne, hls] at h
  have hcover : ∀ path ∈ (onFilesystem filesystem members).map fun m ↦ packagePlace m.stripped,
      ∃ l ∈ ls, l.path = path := fun path hpath ↦ by
    rw [← paths_of_lines hwritten] at hpath
    exact List.mem_map.mp hpath
  have hok : ∃ text, writeLines (directoryLines (directoryTimeOf (onFilesystem filesystem members))
      ((onFilesystem filesystem members).map fun m ↦ packagePlace m.stripped) ++ ls.map .ok) = .ok text := by
    cases hwrite : writeLines (directoryLines (directoryTimeOf (onFilesystem filesystem members))
      ((onFilesystem filesystem members).map fun m ↦ packagePlace m.stripped) ++ ls.map .ok) with
    | error e =>
      rw [hwrite] at h
      cases h
    | ok text => exact ⟨text, rfl⟩
  have hmembers := clean_of_lines hwritten clean_packagePlace ((writeMembers_isOk_iff hcover).mp hok)
  rintro (hrefused | hdirty | ⟨⟨data, hk⟩, hdirty⟩)
  · exact hsafe m hm hrefused
  · exact hdirty (hmembers m hm).1
  · exact hdirty ((hmembers m hm).2 data hk)

/-- One file system has the expected entries. -/
def Right (payloads : List (Text × List Byte)) (expected : List (Text × Installed)) :
    Option (Text × ℕ) → Prop
  | none => expected = []
  | some (text, _) => Installs payloads text expected

/-- The entries of one file system, as they are written. -/
theorem right_iff (hlinks : LinksBack members) {r : Option (Text × ℕ)}
    (h : writePackageManifest work fileNumber members filesystem = .ok r) : ∃ ls : List Line,
      List.Forall₂ (Written work (packagePayloads work fileNumber members) packagePlace
        (filesystemOf · = filesystem)) (onFilesystem filesystem members) ls ∧ ∀ expected,
      (Right (packagePayloads work fileNumber members) expected r ↔
        (ls.map (Line.installed (packagePayloads work fileNumber members))).Perm (expected.map some)) := by
  have hsafe := safe_of_writePackageManifest h
  obtain ⟨ls, hls, hwritten⟩ := package_lines work fileNumber hlinks hsafe
  refine ⟨ls, hwritten, fun expected ↦ ?_⟩
  rw [writePackageManifest_eq hsafe] at h
  split at h
  · rename_i hnil
    obtain rfl := Except.ok.inj h
    rw [hnil] at hwritten
    cases hwritten
    simp [Right]
  · rw [hls] at h
    cases hwrite : writeLines (directoryLines (directoryTimeOf (onFilesystem filesystem members))
      ((onFilesystem filesystem members).map fun m ↦ packagePlace m.stripped) ++ ls.map .ok) with
    | error e =>
      rw [hwrite] at h
      cases h
    | ok text =>
      rw [hwrite] at h
      obtain rfl := Except.ok.inj h
      refine installs_iff hwrite (fun l hl ↦ ⟨kinds_of_lines hwritten l hl, ?_⟩) expected
      rw [← paths_of_lines hwritten]
      exact List.mem_map_of_mem hl

theorem package_entries_iff (hlinks : LinksBack members) {results : Filesystem → Option (Text × ℕ)}
    (h : ∀ filesystem, writePackageManifest work fileNumber members filesystem = .ok (results filesystem)) :
    (∀ filesystem, Right (packagePayloads work fileNumber members) (packageEntries filesystem members)
      (results filesystem)) ↔ ∀ m ∈ members, m.ownName.head? ≠ some '.' := by
  constructor
  · intro hright
    have hpaths : ∀ filesystem, ((onFilesystem filesystem members).map fun m ↦ packagePlace m.stripped).Perm
        ((members.filter fun m ↦ filesystemOf m.ownName = filesystem).map fun m ↦ packagePlace m.ownName) := by
      intro filesystem
      obtain ⟨ls, hwritten, hiff⟩ := right_iff hlinks (h filesystem)
      have hsame := paths_perm ((hiff _).mp (hright filesystem))
      rwa [paths_of_lines hwritten, packageEntries,
        map_fst_entries fun m hm ↦ hlinks.kind (List.mem_of_mem_filter hm)] at hsame
    have hroot := ((hpaths .root).map List.length).sum_eq
    have husr := ((hpaths .usr).map (List.length · + 4)).sum_eq
    rw [List.map_map, List.map_map] at hroot husr
    refine names_kept_of_sum ?_
    calc (members.map fun m ↦ m.stripped.length + 1).sum
        = _ := (sum_places Member.stripped members).symm
      _ = _ := congrArg₂ (· + ·) hroot husr
      _ = _ := sum_places Member.ownName members
  · intro hnames filesystem
    obtain ⟨ls, hwritten, hiff⟩ := right_iff hlinks (h filesystem)
    have hsame : onFilesystem filesystem members = members.filter fun m ↦ filesystemOf m.ownName = filesystem :=
      List.filter_congr fun m hm ↦ by rw [stripped_eq_ownName (hnames m hm)]
    refine (hiff _).mpr (.of_eq ?_)
    rw [packageEntries, ← hsame]
    refine installed_lines hwritten (nodup_packagePayloads work fileNumber members) hlinks onFilesystem_subset hnames
      fun m hm m' _ heq ↦ heq.trans ?_
    rw [hsame] at hm
    simpa using (List.mem_filter.mp hm).2

theorem writePackageManifests_eq_iff {manifests : List (Filesystem × Text × ℕ)} :
    writePackageManifests work fileNumber members = .ok manifests ↔
      ∃ results : Filesystem → Option (Text × ℕ),
        (∀ filesystem, writePackageManifest work fileNumber members filesystem = .ok (results filesystem)) ∧
        manifests = ((results .root).map (Filesystem.root, ·)).toList ++
          ((results .usr).map (Filesystem.usr, ·)).toList := by
  rw [writePackageManifests]
  constructor
  · intro h
    cases hroot : writePackageManifest work fileNumber members .root with
    | error e =>
      rw [hroot] at h
      cases h
    | ok root =>
      cases husr : writePackageManifest work fileNumber members .usr with
      | error e =>
        rw [hroot, husr] at h
        cases h
      | ok usr =>
        rw [hroot, husr] at h
        refine ⟨fun filesystem ↦ Filesystem.casesOn filesystem root usr, fun filesystem ↦ ?_, (Except.ok.inj h).symm⟩
        cases filesystem
        · exact hroot
        · exact husr
  · rintro ⟨results, hresults, rfl⟩
    rw [hresults .root, hresults .usr]
    rfl

theorem lookup_manifests (results : Filesystem → Option (Text × ℕ)) (filesystem : Filesystem) :
    (((results .root).map (Filesystem.root, ·)).toList ++ ((results .usr).map (Filesystem.usr, ·)).toList).lookup
      filesystem = results filesystem := by
  cases hroot : results .root <;> cases husr : results .usr <;> cases filesystem <;>
    simp [hroot, husr, List.lookup_cons, show (Filesystem.root == Filesystem.usr) = false from rfl,
      show (Filesystem.usr == Filesystem.root) = false from rfl]

variable (fileNumber) in
theorem packages_accept_iff (hlinks : LinksBack members) :
    (∃ manifests, writePackageManifests work fileNumber members = .ok manifests) ↔
      ∀ m ∈ members, ¬ Refused work below m := by
  constructor
  · rintro ⟨manifests, h⟩ m hm
    obtain ⟨results, hresults, -⟩ := writePackageManifests_eq_iff.mp h
    exact not_refused_of_package hlinks (hresults (filesystemOf m.stripped)) m
      (List.mem_filter.mpr ⟨hm, by simp⟩)
  · intro h
    choose results hresults using package_accepts hlinks h fileNumber
    exact ⟨_, writePackageManifests_eq_iff.mpr ⟨results, hresults, rfl⟩⟩

end Package

section Main

variable {work : Plain} {fileNumber : ℕ} {members : List Member}

theorem exists_error_iff {ε α : Type} {x : Except ε α} : (∃ e, x = .error e) ↔ ¬ ∃ a, x = .ok a := by
  cases x <;> simp

theorem packageInstalls_iff (hlinks : LinksBack members) :
    PackageInstalls work fileNumber members ↔ KeepsNames (Refused work below) members := by
  have hentries : (∃ manifests, writePackageManifests work fileNumber members = .ok manifests) →
      ((∃ manifests, writePackageManifests work fileNumber members = .ok manifests ∧ ∀ filesystem,
        Right (packagePayloads work fileNumber members) (packageEntries filesystem members)
          (manifests.lookup filesystem)) ↔ ∀ m ∈ members, m.ownName.head? ≠ some '.') := by
    rintro ⟨manifests, h⟩
    obtain ⟨results, hresults, hmanifests⟩ := writePackageManifests_eq_iff.mp h
    rw [← package_entries_iff hlinks hresults]
    constructor
    · rintro ⟨manifests', h', hright⟩ filesystem
      rw [h] at h'
      rw [← lookup_manifests results filesystem, ← hmanifests, Except.ok.inj h']
      exact hright filesystem
    · intro hright
      refine ⟨manifests, h, fun filesystem ↦ ?_⟩
      rw [hmanifests, lookup_manifests]
      exact hright filesystem
  rw [← keepsNames_iff (packages_accept_iff fileNumber hlinks) hentries]
  constructor
  · intro h
    refine ⟨fun hbad ↦ exists_error_iff.mp (h.raises hbad), fun hgood ↦ ?_⟩
    obtain ⟨manifests, hok, hright⟩ := h.installs hgood
    exact ⟨⟨manifests, hok⟩, manifests, hok, hright⟩
  · rintro ⟨hbad, hgood⟩
    refine ⟨fun h ↦ exists_error_iff.mpr (hbad h), fun h ↦ ?_, fun m _ m' _ hne heq ↦ ?_⟩
    · obtain ⟨-, manifests, hok, hright⟩ := hgood h
      exact ⟨manifests, hok, hright⟩
    · obtain ⟨hsame, hplace⟩ := Prod.mk.inj heq
      exact hne (packagePlace_injective hsame hplace)

theorem upgradeInstalls_iff (hlinks : LinksBack members) :
    UpgradeInstalls work members ↔ members ≠ [] ∧ KeepsNames (Refused work id) members := by
  have hempty : (∃ text, writeUpgradeManifest work members = .ok text) → members ≠ [] :=
    fun ⟨_, h⟩ ↦ (safe_of_writeUpgradeManifest h).1
  have hentries : (∃ text, writeUpgradeManifest work members = .ok text) →
      ((∃ text, writeUpgradeManifest work members = .ok text ∧
        Installs (upgradePayloads work 0 members) text (members.filterMap (Member.entry upgradePlace))) ↔
        ∀ m ∈ members, m.ownName.head? ≠ some '.') := by
    rintro ⟨text, h⟩
    rw [← upgrade_entries_iff hlinks h]
    constructor
    · rintro ⟨text', h', hright⟩
      rw [h] at h'
      rwa [Except.ok.inj h']
    · exact fun hright ↦ ⟨text, h, hright⟩
  constructor
  · intro h
    have hne : members ≠ [] := by
      rintro rfl
      obtain ⟨text, hok, -⟩ := h.installs fun m hm ↦ absurd hm List.not_mem_nil
      exact hempty ⟨text, hok⟩ rfl
    refine ⟨hne, (keepsNames_iff (upgrade_accepts_iff hlinks hne) hentries).mp ⟨fun hbad ↦ ?_, fun hgood ↦ ?_⟩⟩
    · exact exists_error_iff.mp (h.raises hbad)
    · obtain ⟨text, hok, hright⟩ := h.installs hgood
      exact ⟨⟨text, hok⟩, text, hok, hright⟩
  · rintro ⟨hne, hkeeps⟩
    obtain ⟨hbad, hgood⟩ := (keepsNames_iff (upgrade_accepts_iff hlinks hne) hentries).mpr hkeeps
    refine ⟨fun h ↦ exists_error_iff.mpr (hbad h), fun h ↦ (hgood h).2, fun m _ m' _ hdiff heq ↦ ?_⟩
    exact hdiff (List.cons.inj heq).2

/-- Package and update members come under their own names exactly when no name begins with a dot,
and the members that are refused are those of an archive that has to be. -/
theorem own_names_iff (work : Plain) (fileNumber : ℕ) (hlinks : LinksBack members) :
    (PackageInstalls work fileNumber members ↔ KeepsNames (Refused work below) members) ∧
      (UpgradeInstalls work members ↔ members ≠ [] ∧ KeepsNames (Refused work id) members) :=
  ⟨packageInstalls_iff hlinks, upgradeInstalls_iff hlinks⟩

instance (t : Text) : Decidable (Clean t) := inferInstanceAs (Decidable (_ ∧ _))

instance (t : Text) : Decidable (BadName t) := inferInstanceAs (Decidable (_ ∨ _))

def workDirectory : Plain := ⟨['/', 't', 'm', 'p'], by decide⟩

def fileMember (name : Plain) : Member := ⟨name, 0o644, 0, 0, 0, .file [0]⟩

def linkMember (name linkname : Plain) : Member := ⟨name, 0o644, 0, 0, 0, .link linkname⟩

theorem linksBack_fileMember (name : Plain) : LinksBack [fileMember name] := by
  intro before m after hsplit
  rcases before with _ | ⟨m', before⟩
  · obtain ⟨rfl, -⟩ := List.cons.inj hsplit
    refine ⟨by simp [fileMember], fun linkname hlink ↦ ?_⟩
    cases hlink
  · simp at hsplit

/-- `./usr/a` and a link to it. -/
def linkedArchive : List Member :=
  [fileMember ⟨['.', '/', 'u', 's', 'r', '/', 'a'], by decide⟩,
    linkMember ⟨['u', 's', 'r', '/', 'b'], by decide⟩ ⟨['u', 's', 'r', '/', 'a'], by decide⟩]

theorem linksBack_linkedArchive : LinksBack linkedArchive := by
  intro before m after hsplit
  rcases before with _ | ⟨m', _ | ⟨m'', before⟩⟩
  · obtain ⟨rfl, -⟩ := List.cons.inj hsplit
    refine ⟨by simp [fileMember], fun linkname hlink ↦ ?_⟩
    cases hlink
  · obtain ⟨rfl, hrest⟩ := List.cons.inj hsplit
    obtain ⟨rfl, -⟩ := List.cons.inj hrest
    refine ⟨by simp [linkMember], fun linkname hlink ↦ ?_⟩
    obtain rfl := MemberKind.link.inj hlink
    exact ⟨_, List.mem_cons_self, by decide, by decide⟩
  · simp [linkedArchive] at hsplit

theorem keepsNames_linkedArchive {relative : Text → Text}
    (h : ∀ m ∈ linkedArchive, ¬ isUnsafe (relative m.stripped)) :
    KeepsNames (Refused workDirectory relative) linkedArchive := by
  have hgood : ∀ m ∈ linkedArchive, ¬ BadName m.ownName ∧ m.ownName.head? ≠ some '.' ∧ Clean m.stripped := by
    simp only [linkedArchive, List.forall_mem_cons, List.not_mem_nil, false_imp_iff, implies_true, and_true]
    decide
  refine ⟨fun ⟨m, hm, hbad⟩ ↦ absurd hbad (hgood m hm).1, fun _ m hm ↦ ⟨(hgood m hm).2.1, ?_⟩⟩
  rintro (hrefused | hdirty | ⟨-, hdirty⟩)
  · exact h m hm hrefused
  · exact hdirty (hgood m hm).2.2
  · exact absurd hdirty (by decide)

theorem own_names_iff_linked :
    PackageInstalls workDirectory 1 linkedArchive ∧ UpgradeInstalls workDirectory linkedArchive := by
  have hmain := own_names_iff workDirectory 1 linksBack_linkedArchive
  refine ⟨hmain.1.mpr (keepsNames_linkedArchive ?_),
    hmain.2.mpr ⟨List.cons_ne_nil _ _, keepsNames_linkedArchive ?_⟩⟩
  · simp only [linkedArchive, List.forall_mem_cons, List.not_mem_nil, false_imp_iff, implies_true, and_true]
    decide
  · simp only [linkedArchive, List.forall_mem_cons, List.not_mem_nil, false_imp_iff, implies_true, and_true]
    decide

/-- A member `.profile` is installed as `/profile`. -/
theorem dot_is_stripped :
    let archive := [fileMember ⟨['.', 'p', 'r', 'o', 'f', 'i', 'l', 'e'], by decide⟩]
    LinksBack archive ∧ ¬ PackageInstalls workDirectory 1 archive ∧ ¬ UpgradeInstalls workDirectory archive := by
  intro archive
  have hgood : ∀ m ∈ archive, ¬ BadName m.ownName := by
    simp only [archive, List.forall_mem_cons, List.not_mem_nil, false_imp_iff, implies_true, and_true]
    decide
  have hdot : (fileMember ⟨['.', 'p', 'r', 'o', 'f', 'i', 'l', 'e'], by decide⟩).ownName.head? = some '.' := by
    decide
  have hlinks := linksBack_fileMember ⟨['.', 'p', 'r', 'o', 'f', 'i', 'l', 'e'], by decide⟩
  refine ⟨hlinks, fun h ↦ ?_, fun h ↦ ?_⟩
  · exact (((packageInstalls_iff hlinks).mp h).good hgood _ List.mem_cons_self).1 hdot
  · exact (((upgradeInstalls_iff hlinks).mp h).2.good hgood _ List.mem_cons_self).1 hdot

end Main

end S8000.Restore
