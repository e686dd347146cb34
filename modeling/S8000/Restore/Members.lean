import S8000.Restore.Install

namespace S8000.Restore

open Foundation Foundation.Bytes Foundation.Numerals Foundation.Traversal Foundation.Joining
open Dump (Text)

section Names

/-- A name without its leading `./` and `/`. -/
def memberName : Text → Text
  | '/' :: t => memberName t
  | '.' :: '/' :: t => memberName t
  | t => t

theorem lstripDots_cons {c : Char} (h : c = '.' ∨ c = '/') (t : Text) : lstripDots (c :: t) = lstripDots t := by
  rw [lstripDots, List.dropWhile_cons_of_pos (by simpa using h)]
  rfl

/-- The writers take away at least what they should. -/
theorem lstripDots_memberName (t : Text) : lstripDots (memberName t) = lstripDots t := by
  induction t using memberName.induct with
  | case1 t ih => rw [memberName, ih, lstripDots_cons (.inr rfl)]
  | case2 t ih => rw [memberName, ih, lstripDots_cons (.inl rfl), lstripDots_cons (.inr rfl)]
  | case3 t h h' => rw [memberName.eq_3 t h h']

theorem head?_memberName (t : Text) : (memberName t).head? ≠ some '/' := by
  induction t using memberName.induct with
  | case1 t ih => rwa [memberName]
  | case2 t ih => rwa [memberName]
  | case3 t h h' =>
    rw [memberName.eq_3 t h h']
    intro hhead
    obtain ⟨rest, rfl⟩ := List.head?_eq_some_iff.mp hhead
    exact h rest rfl

theorem lstripDots_of_head {t : Text} (hdot : t.head? ≠ some '.') (hslash : t.head? ≠ some '/') :
    lstripDots t = t := by
  cases t with
  | nil => rfl
  | cons c t =>
    rw [List.head?_cons, ne_eq, Option.some.injEq] at hdot hslash
    rw [lstripDots, List.dropWhile_cons_of_neg (by simp [hdot, hslash])]

theorem length_lstripDots_le (t : Text) : (lstripDots t).length ≤ t.length :=
  (List.dropWhile_suffix _).length_le

/-- A name is spared when it does not begin with a dot. -/
theorem length_lstripDots_eq_iff {t : Text} :
    (lstripDots (memberName t)).length = (memberName t).length ↔ (memberName t).head? ≠ some '.' := by
  constructor
  · intro hlen hhead
    obtain ⟨rest, hrest⟩ := List.head?_eq_some_iff.mp hhead
    rw [hrest, lstripDots_cons (.inl rfl), List.length_cons] at hlen
    have := length_lstripDots_le rest
    omega
  · intro hhead
    rw [lstripDots_of_head hhead (head?_memberName t)]

/-- Without a tab and a newline. -/
def Clean (t : Text) : Prop := '\t' ∉ t ∧ '\n' ∉ t

theorem clean_append {s t : Text} : Clean (s ++ t) ↔ Clean s ∧ Clean t := by
  simp only [Clean, List.mem_append, not_or]
  tauto

theorem clean_slash {t : Text} : Clean ('/' :: t) ↔ Clean t := by
  simp [Clean]

theorem Clean.of_subset {s t : Text} (h : Clean t) (hs : s ⊆ t) : Clean s :=
  ⟨fun hc ↦ h.1 (hs hc), fun hc ↦ h.2 (hs hc)⟩

theorem clean_toDigits {b : ℕ} (hb : 1 < b) (hb' : b ≤ 10) (n : ℕ) : Clean (Nat.toDigits b n) := by
  have hdigit : ∀ d < 10, Nat.digitChar d ≠ '\t' ∧ Nat.digitChar d ≠ '\n' := by decide
  constructor
  · intro hc
    obtain ⟨d, hd, hc⟩ := mem_toDigits hb n hc
    exact (hdigit d (by omega)).1 hc.symm
  · intro hc
    obtain ⟨d, hd, hc⟩ := mem_toDigits hb n hc
    exact (hdigit d (by omega)).2 hc.symm

theorem clean_decimal (i : ℤ) : Clean (decimal i) := by
  cases i with
  | ofNat n => exact clean_toDigits (by decide) le_rfl n
  | negSucc n =>
    have hminus : Clean ['-'] := ⟨by decide, by decide⟩
    exact clean_append.mpr ⟨hminus, clean_toDigits (by decide) le_rfl (n + 1)⟩

theorem safe_iff {l : Line} : l.Safe ↔ Clean l.aux ∧ Clean l.path := by
  have hletter : Clean [l.kind.letter] := by
    cases l.kind <;> exact ⟨by decide, by decide⟩
  rw [Line.Safe, Line.fields]
  simp only [List.forall_mem_cons, List.not_mem_nil, false_imp_iff, implies_true, and_true]
  constructor
  · rintro ⟨-, -, -, -, -, -, haux, hpath⟩
    exact ⟨haux, hpath⟩
  · rintro ⟨haux, hpath⟩
    exact ⟨hletter, clean_toDigits (by decide) (by decide) _, clean_decimal _, clean_decimal _,
      clean_decimal _, clean_decimal _, haux, hpath⟩

end Names

section Text

/-- Clean lines can be told apart again. -/
theorem text_injective {l l' : Line} (h : l.Safe) (h' : l'.Safe) (htext : l.text = l'.text) :
    l.kind = l'.kind ∧ l.aux = l'.aux ∧ l.path = l'.path := by
  have hfields : l.fields = l'.fields := by
    have hjoin := List.append_inj_left' htext rfl
    rw [← List.splitOn_intercalate '\t' (fun x hx ↦ (h x hx).1) (List.cons_ne_nil _ _), hjoin,
      List.splitOn_intercalate '\t' (fun x hx ↦ (h' x hx).1) (List.cons_ne_nil _ _)]
  simp only [Line.fields, List.cons.injEq, and_true] at hfields
  obtain ⟨hkind, -, -, -, -, -, haux, hpath⟩ := hfields
  refine ⟨?_, haux, hpath⟩
  revert hkind
  cases l.kind <;> cases l'.kind <;> decide

theorem newline_notMem {l : Line} (h : l.Safe) : '\n' ∉ ['\t'].intercalate l.fields := by
  intro hmem
  rcases mem_of_mem_intercalate hmem with hmem | ⟨x, hx, hmem⟩
  · exact absurd hmem (by decide)
  · exact (h x hx).2 hmem

/-- What a manifest says can be read off it in one way. -/
theorem lines_unique {ls ls' : List Line} (h : ∀ l ∈ ls, l.Safe) (h' : ∀ l ∈ ls', l.Safe)
    (htext : (ls.map Line.text).flatten = (ls'.map Line.text).flatten) :
    List.Forall₂ (fun l l' ↦ l.kind = l'.kind ∧ l.aux = l'.aux ∧ l.path = l'.path) ls ls' := by
  induction ls generalizing ls' with
  | nil =>
    cases ls' with
    | nil => exact .nil
    | cons l' ls' => simp [Line.text] at htext
  | cons l ls ih =>
    cases ls' with
    | nil => simp [Line.text] at htext
    | cons l' ls' =>
      obtain ⟨hl, hls⟩ := List.forall_mem_cons.mp h
      obtain ⟨hl', hls'⟩ := List.forall_mem_cons.mp h'
      simp only [List.map_cons, List.flatten_cons, Line.text, List.append_assoc, List.singleton_append] at htext
      obtain ⟨hfront, hrest⟩ := append_cons_unique (newline_notMem hl) (newline_notMem hl') htext
      refine .cons (text_injective hl hl' ?_) (ih hls hls' hrest)
      rw [Line.text, hfront, Line.text]

end Text

section Manifest

/-- What a manifest puts at a path. -/
inductive Installed
  | bytes (data : List Byte)
  | linkTo (target : Text)
deriving DecidableEq

/-- A line of a member, with the payload that it names. -/
def Line.installed (payloads : List (Text × List Byte)) (l : Line) : Option (Text × Installed) :=
  match l.kind with
  | .file => (payloads.lookup l.aux).map fun data ↦ (l.path, .bytes data)
  | .link => some (l.path, .linkTo l.aux)
  | _ => none

/-- The parent directories of every member stand before it. -/
def ParentsPrecede (ls : List Line) : Prop :=
  ∀ before l after, ls = before ++ l :: after → l.kind ≠ .directory → ∀ ps, ps ≠ [] →
    ps <+: (parts l.path).dropLast → ∃ d ∈ before, d.kind = .directory ∧ d.path = absolute ps

/-- A manifest has one entry for each of the expected ones, besides the directories. -/
def Installs (payloads : List (Text × List Byte)) (text : Text) (expected : List (Text × Installed)) : Prop :=
  ∃ ls : List Line, (∀ l ∈ ls, l.Safe) ∧ text = manifestHeader ++ (ls.map Line.text).flatten ∧
    ((ls.filter (·.kind ≠ .directory)).map (Line.installed payloads)).Perm (expected.map some) ∧
    ParentsPrecede ls

variable {payloads : List (Text × List Byte)} {paths : List Text} {t : ℤ} {ls : List Line} {text : Text}

theorem writeLines_map_ok (h : ∀ l ∈ ls, l.Safe) :
    writeLines (ls.map .ok) = .ok (manifestHeader ++ (ls.map Line.text).flatten) := by
  have htexts : (ls.map Except.ok).mapM (fun l : Except ManifestError Line ↦ l >>= manifestLine) =
      .ok (ls.map Line.text) := by
    rw [mapM_eq_ok, List.forall₂_map_left_iff, List.forall₂_map_right_iff, List.forall₂_same]
    exact fun l hl ↦ manifestLine_eq_ok.mpr ⟨h l hl, rfl⟩
  rw [writeLines, htexts]
  rfl

theorem writeLines_isOk_iff : (∃ text, writeLines (ls.map .ok) = .ok text) ↔ ∀ l ∈ ls, l.Safe := by
  constructor
  · rintro ⟨text, h⟩
    obtain ⟨ls', hls', hsafe, -⟩ := writeLines_eq_ok h
    have hok : Function.Injective (List.map (Except.ok : Line → Except ManifestError Line)) :=
      List.map_injective_iff.mpr fun _ _ ↦ Except.ok.inj
    rwa [hok hls']
  · exact fun h ↦ ⟨_, writeLines_map_ok h⟩

theorem directoryLines_eq (t : ℤ) (paths : List Text) :
    directoryLines t paths = ((directoriesOf paths).map (directoryLine t)).map .ok := by
  rw [directoryLines, List.map_map]
  rfl

theorem safe_directoryLine (h : ∀ path ∈ paths, Clean path) (t : ℤ) {d : Text} (hd : d ∈ directoriesOf paths) :
    (directoryLine t d).Safe := by
  obtain ⟨path, hpath, hd⟩ := mem_directoriesOf.mp hd
  obtain ⟨ps, -, hps, rfl⟩ := mem_parentDirectories.mp hd
  have hparts : ∀ c ∈ absolute ps, c = '/' ∨ c ∈ path := by
    intro c hc
    rw [absolute, List.mem_cons] at hc
    rcases hc with hc | hc
    · exact .inl hc
    rcases mem_of_mem_intercalate hc with hc | ⟨p, hp, hc⟩
    · exact .inl (List.mem_singleton.mp hc)
    · exact .inr (mem_of_mem_parts (List.dropLast_subset _ (hps.subset hp)) hc)
  have hdash : Clean ['-'] := ⟨by decide, by decide⟩
  refine safe_iff.mpr ⟨hdash, ?_, ?_⟩
  · intro hc
    rcases hparts _ hc with hc | hc
    · exact absurd hc (by decide)
    · exact (h path hpath).1 hc
  · intro hc
    rcases hparts _ hc with hc | hc
    · exact absurd hc (by decide)
    · exact (h path hpath).2 hc

/-- A writer of directories and members refuses the unclean fields of the members, and no others. -/
theorem writeMembers_isOk_iff (hpaths : ∀ path ∈ paths, ∃ l ∈ ls, l.path = path) :
    (∃ text, writeLines (directoryLines t paths ++ ls.map .ok) = .ok text) ↔
      ∀ l ∈ ls, Clean l.aux ∧ Clean l.path := by
  rw [directoryLines_eq, ← List.map_append, writeLines_isOk_iff]
  constructor
  · exact fun h l hl ↦ safe_iff.mp (h l (List.mem_append_right _ hl))
  · intro h l hl
    rcases List.mem_append.mp hl with hl | hl
    · obtain ⟨d, hd, rfl⟩ := List.mem_map.mp hl
      refine safe_directoryLine (fun path hpath ↦ ?_) t hd
      obtain ⟨l, hl, rfl⟩ := hpaths path hpath
      exact (h l hl).2
    · exact safe_iff.mpr (h l hl)

theorem parentsPrecede (hls : ∀ l ∈ ls, l.path ∈ paths) :
    ParentsPrecede ((directoriesOf paths).map (directoryLine t) ++ ls) := by
  intro before l after hsplit hkind ps hne hps
  have hdirs : ∀ d ∈ (directoriesOf paths).map (directoryLine t), d.kind = .directory := by
    intro d hd
    obtain ⟨path, -, rfl⟩ := List.mem_map.mp hd
    rfl
  have hl : l ∈ ls := by
    have hmem : l ∈ (directoriesOf paths).map (directoryLine t) ++ ls := by
      rw [hsplit]
      exact List.mem_append_right _ List.mem_cons_self
    exact (List.mem_append.mp hmem).resolve_left fun hd ↦ hkind (hdirs l hd)
  have hd : directoryLine t (absolute ps) ∈ (directoriesOf paths).map (directoryLine t) :=
    List.mem_map_of_mem (mem_directoriesOf.mpr
      ⟨l.path, hls l hl, mem_parentDirectories.mpr ⟨ps, hne, hps, rfl⟩⟩)
  refine ⟨directoryLine t (absolute ps), ?_, rfl, rfl⟩
  rcases List.append_eq_append_iff.mp hsplit with ⟨rest, hbefore, -⟩ | ⟨rest, hdirs', hrest⟩
  · rw [hbefore]
    exact List.mem_append_left _ hd
  · -- the line of a member cannot stand among the directories
    cases rest with
    | nil =>
      rw [hdirs', List.append_nil] at hd
      exact hd
    | cons r rest =>
      obtain ⟨rfl, -⟩ := List.cons.inj hrest
      exact absurd (hdirs l (hdirs' ▸ List.mem_append_right _ List.mem_cons_self)) hkind

/-- A manifest has the expected entries exactly when its lines of members are these. -/
theorem installs_iff (h : writeLines (directoryLines t paths ++ ls.map .ok) = .ok text)
    (hls : ∀ l ∈ ls, l.kind ≠ .directory ∧ l.path ∈ paths) (expected : List (Text × Installed)) :
    Installs payloads text expected ↔ (ls.map (Line.installed payloads)).Perm (expected.map some) := by
  obtain ⟨ls', hls', hsafe, rfl⟩ := writeLines_eq_ok h
  have hok : Function.Injective (List.map (Except.ok : Line → Except ManifestError Line)) :=
    List.map_injective_iff.mpr fun _ _ ↦ Except.ok.inj
  rw [directoryLines_eq, ← List.map_append] at hls'
  obtain rfl := hok hls'
  have hfilter : ((directoriesOf paths).map (directoryLine t) ++ ls).filter (·.kind ≠ .directory) = ls := by
    rw [List.filter_append, List.filter_eq_nil_iff.mpr, List.filter_eq_self.mpr, List.nil_append]
    · exact fun l hl ↦ by simpa using (hls l hl).1
    · intro l hl
      obtain ⟨d, -, rfl⟩ := List.mem_map.mp hl
      simp [directoryLine]
  constructor
  · rintro ⟨ls', hsafe', htext, hperm, -⟩
    have hsame := lines_unique hsafe hsafe' (List.append_cancel_left htext)
    have hentries : ls.map (Line.installed payloads) =
        (ls'.filter (·.kind ≠ .directory)).map (Line.installed payloads) := by
      rw [← hfilter]
      clear hperm htext hsafe hsafe' hfilter h hls hls'
      generalize (directoriesOf paths).map (directoryLine t) ++ ls = all at hsame ⊢
      induction hsame with
      | nil => rfl
      | cons hl _ ih =>
        obtain ⟨hkind, haux, hpath⟩ := hl
        rw [List.filter_cons, List.filter_cons, hkind]
        split
        · rw [List.map_cons, List.map_cons, ih, Line.installed, Line.installed, hkind, haux, hpath]
        · exact ih
    rwa [hentries]
  · intro hperm
    refine ⟨_, hsafe, rfl, ?_, parentsPrecede fun l hl ↦ (hls l hl).2⟩
    rwa [hfilter]

end Manifest

section Written

/-- What the entry of a member should be, where `place` says where a name is installed. -/
def Member.entry (place : Text → Text) (m : Member) : Option (Text × Installed) :=
  match m.kind with
  | .file data => some (place (memberName m.name.val), .bytes data)
  | .link linkname => some (place (memberName m.name.val), .linkTo (place (memberName linkname.val)))
  | .other => none

/-- The line that a writer makes of a member; `on` holds of the names that it places itself. -/
structure Written (work : Plain) (files : List (Text × List Byte)) (place : Text → Text) (on : Text → Prop)
    (m : Member) (l : Line) : Prop where
  path : l.path = place m.stripped
  file {data : List Byte} : m.kind = .file data →
    l.kind = .file ∧ (l.aux, data) ∈ files ∧ (Clean l.aux ↔ Clean work.val)
  link {linkname : Plain} : m.kind = .link linkname → l.kind = .link ∧
    (Clean (lstripDots linkname.val) → Clean l.aux) ∧
    (on (lstripDots linkname.val) → l.aux = place (lstripDots linkname.val))
  kind : m.kind ≠ .other

variable {work : Plain} {files : List (Text × List Byte)} {place : Text → Text} {on : Text → Prop}
  {m : Member} {l : Line} {ms : List Member} {ls : List Line}

theorem Written.kind_ne (h : Written work files place on m l) : l.kind ≠ .directory := by
  intro hd
  cases hk : m.kind with
  | file data => exact absurd (hd ▸ (h.file hk).1) (by decide)
  | link linkname => exact absurd (hd ▸ (h.link hk).1) (by decide)
  | other => exact h.kind hk

theorem Written.clean (h : Written work files place on m l) (hplace : ∀ t, Clean (place t) ↔ Clean t)
    (hname : Clean m.stripped) (hwork : ∀ data, m.kind = .file data → Clean work.val)
    (hlink : ∀ linkname, m.kind = .link linkname → Clean (lstripDots linkname.val)) :
    Clean l.aux ∧ Clean l.path := by
  refine ⟨?_, by rw [h.path, hplace]; exact hname⟩
  cases hk : m.kind with
  | file data => exact (h.file hk).2.2.mpr (hwork data hk)
  | link linkname => exact (h.link hk).2.1 (hlink linkname hk)
  | other => exact absurd hk h.kind

theorem lookup_of_mem {aux : Text} {data : List Byte} (hfiles : (files.map Prod.fst).Nodup)
    (h : (aux, data) ∈ files) : files.lookup aux = some data := by
  induction files with
  | nil => cases h
  | cons f files ih =>
    obtain ⟨hf, hfiles⟩ := List.nodup_cons.mp hfiles
    rw [List.lookup_cons]
    rcases List.mem_cons.mp h with rfl | h
    · simp
    · have hne : aux ≠ f.1 := by
        rintro rfl
        exact hf (List.mem_map.mpr ⟨_, h, rfl⟩)
      rw [beq_false_of_ne hne]
      exact ih hfiles h

/-- A member whose name is kept has its own entry. -/
theorem Written.installed (h : Written work files place on m l) (hfiles : (files.map Prod.fst).Nodup)
    (hname : m.stripped = memberName m.name.val)
    (hlink : ∀ linkname, m.kind = .link linkname →
      lstripDots linkname.val = memberName linkname.val ∧ on (lstripDots linkname.val)) :
    l.installed files = m.entry place := by
  rw [Member.entry, Line.installed, h.path, hname]
  cases hk : m.kind with
  | file data =>
    obtain ⟨hkind, hmem, -⟩ := h.file hk
    simp only [hkind, lookup_of_mem hfiles hmem, Option.map_some]
  | link linkname =>
    obtain ⟨hkind, -, haux⟩ := h.link hk
    obtain ⟨hsame, hon⟩ := hlink linkname hk
    simp only [hkind, haux hon, hsame]
  | other => exact absurd hk h.kind

/-- Whatever the entries are, they stand at the paths that were written. -/
theorem path_of_installed {e : Text × Installed} (h : l.installed files = some e) : e.1 = l.path := by
  rw [Line.installed] at h
  split at h
  · obtain ⟨data, -, rfl⟩ := Option.map_eq_some_iff.mp h
    rfl
  · rw [← Option.some.inj h]
  · cases h

theorem paths_perm {expected : List (Text × Installed)}
    (h : (ls.map (Line.installed files)).Perm (expected.map some)) :
    (ls.map Line.path).Perm (expected.map Prod.fst) := by
  have hpaths : ls.map (fun l ↦ some l.path) = (ls.map (Line.installed files)).map fun o ↦ o.map Prod.fst := by
    rw [List.map_map]
    apply List.map_congr_left
    intro l hl
    have hmem := h.subset (List.mem_map_of_mem hl)
    obtain ⟨e, -, he⟩ := List.mem_map.mp hmem
    rw [Function.comp_apply, ← he, Option.map_some, path_of_installed he.symm]
  have hsome := h.map fun o ↦ o.map Prod.fst
  rw [← hpaths, List.map_map] at hsome
  have hreduce := hsome.filterMap id
  rw [List.filterMap_map, List.filterMap_map] at hreduce
  have hls : ls.filterMap (some ∘ Line.path) = ls.map Line.path := congrFun List.filterMap_eq_map ls
  have hexpected : expected.filterMap (some ∘ Prod.fst) = expected.map Prod.fst :=
    congrFun List.filterMap_eq_map expected
  rw [← hls, ← hexpected]
  exact hreduce

end Written

end S8000.Restore
