import S8000.Dump.Tree
import S8000.Foundation.Joining
import S8000.Foundation.Namespace

namespace S8000.Dump

open Foundation Foundation.Bytes Foundation.Joining Foundation.Namespace

section Names

variable (inodes : Inodes) (blocks : Blocks)

/-- The entries that `dirents` reports for a directory; other inodes have none. -/
def direntsOf (ino : ℕ) : List (ℕ × Text) :=
  if isDir inodes ino then (dirents ino inodes blocks).getD [] else []

/-- The directory `i` has an entry `n` of the inode `k`. -/
def Entry (i : ℕ) (n : Text) (k : ℕ) : Prop := (k, n) ∈ direntsOf inodes blocks i

/-- Following directory entries from inode 2. -/
def Resolves (p : List Text) (k : ℕ) : Prop := Leads (Entry inodes blocks) 2 p k

/-- Every name other than `.` and `..` with its inode and its directory. -/
def allNames : List (ℕ × ℕ × Text) :=
  inodes.keys.flatMap fun i ↦
    ((direntsOf inodes blocks i).filter fun e ↦ ¬ isDot e.2).map fun e ↦ (e.1, i, e.2)

/-- The entries besides `.` and `..` that name an inode. -/
def naming (k : ℕ) : List (ℕ × ℕ × Text) := (allNames inodes blocks).filter (·.1 = k)

end Names

section Paths

variable {inodes : Inodes} {blocks : Blocks}

theorem isDir_of_get? {i : ℕ} {d : Dinode} (h : inodes.get? i = some d) :
    isDir inodes i ↔ d.kind = ifdir := by
  rw [isDir, h]
  rfl

theorem mem_of_isDir {i : ℕ} (h : isDir inodes i) : ∃ d, inodes.get? i = some d ∧ d.kind = ifdir := by
  cases hget : inodes.get? i with
  | none =>
    rw [isDir, hget] at h
    exact absurd h (by decide)
  | some d => exact ⟨d, rfl, (isDir_of_get? hget).mp h⟩

theorem direntsOf_eq {i : ℕ} {d : Dinode} (h : inodes.get? i = some d) (hd : d.kind = ifdir) :
    direntsOf inodes blocks i = entries d.size (blocks.getD i ∅) := by
  rw [direntsOf, if_pos ((isDir_of_get? h).mpr hd), dirents, h]
  rfl

theorem Entry.isDir {i k : ℕ} {n : Text} (h : Entry inodes blocks i n k) : Dump.isDir inodes i := by
  by_contra hdir
  rw [Entry, direntsOf, if_neg hdir] at h
  cases h

theorem Entry.mem_naming {i k : ℕ} {n : Text} (h : Entry inodes blocks i n k) (hn : ¬ isDot n) :
    (k, i, n) ∈ naming inodes blocks k := by
  obtain ⟨d, hd, -⟩ := mem_of_isDir h.isDir
  refine List.mem_filter.mpr ⟨List.mem_flatMap.mpr ⟨i, ?_, ?_⟩, by simp⟩
  · exact Dict.mem_keys.mpr (Dict.mem_iff_get?_eq_some.mpr ⟨d, hd⟩)
  · exact List.mem_map.mpr ⟨(k, n), List.mem_filter.mpr ⟨h, by simpa using hn⟩, rfl⟩

/-- The path of the names `p` below a root. -/
def rootedPath (root : Text) (p : List Text) : Text := p.foldl joinPath root

@[simp] theorem rootedPath_nil (root : Text) : rootedPath root [] = root := rfl

theorem rootedPath_concat (root : Text) (p : List Text) (n : Text) :
    rootedPath root (p ++ [n]) = joinPath (rootedPath root p) n := by
  rw [rootedPath, List.foldl_append]
  rfl

/-- Names free of `.` and `..`. -/
def Plain (p : List Text) : Prop := ∀ n ∈ p, ¬ isDot n

theorem plain_nil : Plain [] := fun _ h ↦ absurd h List.not_mem_nil

theorem plain_concat {p : List Text} {n : Text} : Plain (p ++ [n]) ↔ Plain p ∧ ¬ isDot n := by
  simp only [Plain, List.mem_append, List.mem_singleton]
  constructor
  · intro h
    exact ⟨fun m hm ↦ h m (.inl hm), h n (.inr rfl)⟩
  · rintro ⟨hp, hn⟩ m (hm | rfl)
    · exact hp m hm
    · exact hn

end Paths

section Walk

variable {inodes : Inodes} {blocks : Blocks} {root : Text}

theorem getD_addPath (paths : Dict ℕ (List Text)) (k : ℕ) (path : Text) (j : ℕ) :
    (addPath paths k path).getD j [] =
      if k = j then (if path ∈ paths.getD k [] then paths.getD k [] else paths.getD k [] ++ [path])
      else paths.getD j [] := by
  rw [addPath, Dict.getD_set]

theorem mem_getD_addPath {paths : Dict ℕ (List Text)} {k j : ℕ} {path q : Text} :
    q ∈ (addPath paths k path).getD j [] ↔ q ∈ paths.getD j [] ∨ j = k ∧ q = path := by
  rw [getD_addPath]
  split
  · rename_i hk
    subst hk
    split
    · rename_i hmem
      constructor
      · exact .inl
      · rintro (h | ⟨-, rfl⟩)
        · exact h
        · exact hmem
    · simp
  · rename_i hk
    simp [Ne.symm hk]

/-- What holds of every pair of an inode and a path that the walk has met. -/
structure Sound (inodes : Inodes) (blocks : Blocks) (root : Text) (paths : Dict ℕ (List Text))
    (queue : List (ℕ × Text)) : Prop where
  resolves {k path} : path ∈ paths.getD k [] → ∃ p, path = rootedPath root p ∧ Plain p ∧ Resolves inodes blocks p k
  queued {k path} : (k, path) ∈ queue → ∃ p, path = rootedPath root p ∧ Plain p ∧ Resolves inodes blocks p k
  nodup : ∀ k, (paths.getD k []).Nodup
  named : ∀ k ∈ paths, paths.getD k [] ≠ []

theorem Sound.addPath {paths : Dict ℕ (List Text)} {queue : List (ℕ × Text)}
    (h : Sound inodes blocks root paths queue) {p : List Text} {k : ℕ} (hp : Plain p)
    (hk : Resolves inodes blocks p k) :
    Sound inodes blocks root (addPath paths k (rootedPath root p)) queue where
  resolves hpath := by
    rcases mem_getD_addPath.mp hpath with hpath | ⟨rfl, rfl⟩
    · exact h.resolves hpath
    · exact ⟨p, rfl, hp, hk⟩
  queued := h.queued
  nodup j := by
    rw [getD_addPath]
    split
    · split
      · exact h.nodup k
      · rename_i hnew
        exact (h.nodup k).append (List.nodup_singleton _) (by simpa using hnew)
    · exact h.nodup j
  named j hj := by
    rw [getD_addPath]
    split
    · split
      · rename_i hmem
        exact List.ne_nil_of_mem hmem
      · simp
    · rename_i hne
      exact h.named j ((Dict.mem_set.mp hj).resolve_left (Ne.symm hne))

theorem Sound.enqueue {paths : Dict ℕ (List Text)} {queue : List (ℕ × Text)}
    (h : Sound inodes blocks root paths queue) {p : List Text} {k : ℕ} (hp : Plain p)
    (hk : Resolves inodes blocks p k) :
    Sound inodes blocks root paths (queue ++ [(k, rootedPath root p)]) where
  resolves := h.resolves
  queued hmem := by
    rcases List.mem_append.mp hmem with hmem | hmem
    · exact h.queued hmem
    · cases List.mem_singleton.mp hmem
      exact ⟨p, rfl, hp, hk⟩
  nodup := h.nodup
  named := h.named

theorem Sound.pathEntries {paths : Dict ℕ (List Text)} {queue : List (ℕ × Text)}
    (h : Sound inodes blocks root paths queue) {p : List Text} {i : ℕ} (hp : Plain p)
    (hi : Resolves inodes blocks p i) {es : List (ℕ × Text)} (hes : ∀ e ∈ es, Entry inodes blocks i e.2 e.1) :
    Sound inodes blocks root (pathEntries inodes paths queue (rootedPath root p) es).1
      (pathEntries inodes paths queue (rootedPath root p) es).2 := by
  induction es generalizing paths queue with
  | nil => exact h
  | cons e es ih =>
    obtain ⟨k, n⟩ := e
    have hes' : ∀ e ∈ es, Entry inodes blocks i e.2 e.1 := fun e he ↦ hes e (List.mem_cons_of_mem _ he)
    rw [Dump.pathEntries]
    split
    · exact ih h hes'
    · rename_i hn
      have hpn : Plain (p ++ [n]) := plain_concat.mpr ⟨hp, hn⟩
      have hk : Resolves inodes blocks (p ++ [n]) k :=
        leads_concat.mpr ⟨i, hi, hes (k, n) List.mem_cons_self⟩
      rw [← rootedPath_concat]
      have hadded := h.addPath hpn hk
      refine ih ?_ hes'
      split
      · exact hadded.enqueue hpn hk
      · exact hadded

theorem Sound.tail {paths : Dict ℕ (List Text)} {queue : List (ℕ × Text)} {x : ℕ × Text}
    (h : Sound inodes blocks root paths (x :: queue)) : Sound inodes blocks root paths queue where
  resolves := h.resolves
  queued hmem := h.queued (List.mem_cons_of_mem x hmem)
  nodup := h.nodup
  named := h.named

theorem sound_loop {paths : Dict ℕ (List Text)} {walked : List ℕ} {queue : List (ℕ × Text)}
    (h : Sound inodes blocks root paths queue) :
    Sound inodes blocks root (buildAllPathsLoop inodes blocks paths walked queue) [] := by
  induction paths, walked, queue using buildAllPathsLoop.induct inodes blocks with
  | case1 paths walked =>
    rw [buildAllPathsLoop]
    exact h
  | case2 paths walked ino parent queue hget ih =>
    rw [buildAllPathsLoop_skip fun d hd ↦ by rw [hget] at hd; cases hd]
    exact ih h.tail
  | case3 paths walked ino parent queue d hget hskip ih =>
    rw [buildAllPathsLoop_skip fun d' hd ↦ by rw [hget] at hd; cases hd; exact hskip]
    exact ih h.tail
  | case4 paths walked ino parent queue d hget hwalk next ih =>
    rw [buildAllPathsLoop_walk hget hwalk]
    obtain ⟨p, rfl, hp, hk⟩ := h.queued List.mem_cons_self
    refine ih (h.tail.pathEntries hp hk fun e he ↦ ?_)
    rw [Entry, direntsOf_eq hget (by by_contra hne; exact hwalk (.inr hne))]
    exact he

/-- What the walk has still to do: the names of a directory that was walked are known, and the
directories among them are walked or wait. -/
structure Complete (inodes : Inodes) (blocks : Blocks) (root : Text) (paths : Dict ℕ (List Text))
    (walked : List ℕ) (queue : List (ℕ × Text)) : Prop where
  start : root ∈ paths.getD 2 [] ∧ (isDir inodes 2 → 2 ∈ walked ∨ (2, root) ∈ queue)
  names {i p k n} : i ∈ walked → Plain p → Resolves inodes blocks p i → Entry inodes blocks i n k → ¬ isDot n →
    rootedPath root (p ++ [n]) ∈ paths.getD k [] ∧
      (isDir inodes k → k ∈ walked ∨ (k, rootedPath root (p ++ [n])) ∈ queue)

theorem pathEntries_mono {paths : Dict ℕ (List Text)} {queue : List (ℕ × Text)} {parent : Text}
    (es : List (ℕ × Text)) :
    (∀ k path, path ∈ paths.getD k [] → path ∈ (pathEntries inodes paths queue parent es).1.getD k []) ∧
      ∀ x ∈ queue, x ∈ (pathEntries inodes paths queue parent es).2 := by
  induction es generalizing paths queue with
  | nil => exact ⟨fun _ _ h ↦ h, fun _ h ↦ h⟩
  | cons e es ih =>
    obtain ⟨k, n⟩ := e
    rw [Dump.pathEntries]
    split
    · exact ih
    · refine ⟨fun j path h ↦ ih.1 j path (mem_getD_addPath.mpr (.inl h)), fun x hx ↦ ih.2 x ?_⟩
      split
      · exact List.mem_append_left _ hx
      · exact hx

theorem mem_pathEntries (inodes : Inodes) (paths : Dict ℕ (List Text)) (queue : List (ℕ × Text)) (parent : Text)
    {es : List (ℕ × Text)} {k : ℕ} {n : Text} (he : (k, n) ∈ es) (hn : ¬ isDot n) :
    joinPath parent n ∈ (pathEntries inodes paths queue parent es).1.getD k [] ∧
      (isDir inodes k → (k, joinPath parent n) ∈ (pathEntries inodes paths queue parent es).2) := by
  induction es generalizing paths queue with
  | nil => cases he
  | cons e es ih =>
    obtain ⟨j, m⟩ := e
    rw [Dump.pathEntries]
    rcases List.mem_cons.mp he with heq | he
    · cases heq
      rw [if_neg hn]
      refine ⟨(pathEntries_mono es).1 k _ (mem_getD_addPath.mpr (.inr ⟨rfl, rfl⟩)), fun hk ↦ ?_⟩
      refine (pathEntries_mono es).2 _ ?_
      rw [if_pos hk]
      exact List.mem_append_right _ (List.mem_singleton_self _)
    · split
      · exact ih _ _ he
      · exact ih _ _ he

/-- An entry of the queue that is passed over leads to a directory walked before, or to none. -/
theorem Complete.skip {paths : Dict ℕ (List Text)} {walked : List ℕ} {queue : List (ℕ × Text)} {x : ℕ × Text}
    (h : Complete inodes blocks root paths walked (x :: queue)) (hx : isDir inodes x.1 → x.1 ∈ walked) :
    Complete inodes blocks root paths walked queue := by
  have hkept : ∀ {k path}, isDir inodes k → k ∈ walked ∨ (k, path) ∈ x :: queue → k ∈ walked ∨ (k, path) ∈ queue := by
    intro k path hk hmem
    rcases hmem with hmem | hmem
    · exact .inl hmem
    · rcases List.mem_cons.mp hmem with rfl | hmem
      · exact .inl (hx hk)
      · exact .inr hmem
  refine ⟨⟨h.start.1, fun hd ↦ hkept hd (h.start.2 hd)⟩, fun hi hp hr he hn ↦ ?_⟩
  obtain ⟨hpath, hdir⟩ := h.names hi hp hr he hn
  exact ⟨hpath, fun hd ↦ hkept hd (hdir hd)⟩

theorem Complete.walk {paths : Dict ℕ (List Text)} {walked : List ℕ} {queue : List (ℕ × Text)} {p : List Text}
    {i : ℕ} (h : Complete inodes blocks root paths walked ((i, rootedPath root p) :: queue))
    (hone : ∀ q, Plain q → Resolves inodes blocks q i → q = p) :
    Complete inodes blocks root
      (pathEntries inodes paths queue (rootedPath root p) (direntsOf inodes blocks i)).1 (i :: walked)
      (pathEntries inodes paths queue (rootedPath root p) (direntsOf inodes blocks i)).2 := by
  have hkept : ∀ {k path}, k ∈ walked ∨ (k, path) ∈ (i, rootedPath root p) :: queue →
      k ∈ i :: walked ∨ (k, path) ∈
        (pathEntries inodes paths queue (rootedPath root p) (direntsOf inodes blocks i)).2 := by
    intro k path hmem
    rcases hmem with hmem | hmem
    · exact .inl (List.mem_cons_of_mem _ hmem)
    · rcases List.mem_cons.mp hmem with heq | hmem
      · cases heq
        exact .inl List.mem_cons_self
      · exact .inr ((pathEntries_mono _).2 _ hmem)
  refine ⟨⟨(pathEntries_mono _).1 _ _ h.start.1, fun hd ↦ hkept (h.start.2 hd)⟩, ?_⟩
  intro j q k n hj hq hr he hn
  rcases List.mem_cons.mp hj with rfl | hj
  · obtain rfl := hone q hq hr
    rw [rootedPath_concat]
    obtain ⟨hpath, hdir⟩ := mem_pathEntries inodes paths queue (rootedPath root q) he hn
    exact ⟨hpath, fun hd ↦ .inr (hdir hd)⟩
  · obtain ⟨hpath, hdir⟩ := h.names hj hq hr he hn
    exact ⟨(pathEntries_mono _).1 _ _ hpath, fun hd ↦ hkept (hdir hd)⟩

theorem complete_loop {paths : Dict ℕ (List Text)} {walked : List ℕ} {queue : List (ℕ × Text)}
    (hsound : Sound inodes blocks root paths queue)
    (hone : ∀ i p q, isDir inodes i → Plain p → Plain q → Resolves inodes blocks p i →
      Resolves inodes blocks q i → p = q)
    (h : Complete inodes blocks root paths walked queue) :
    ∃ walked', Complete inodes blocks root (buildAllPathsLoop inodes blocks paths walked queue) walked' [] := by
  induction paths, walked, queue using buildAllPathsLoop.induct inodes blocks with
  | case1 paths walked =>
    rw [buildAllPathsLoop]
    exact ⟨walked, h⟩
  | case2 paths walked ino parent queue hget ih =>
    rw [buildAllPathsLoop_skip fun d hd ↦ by rw [hget] at hd; cases hd]
    refine ih hsound.tail (h.skip fun hdir ↦ ?_)
    obtain ⟨d, hd, -⟩ := mem_of_isDir hdir
    rw [hget] at hd
    cases hd
  | case3 paths walked ino parent queue d hget hskip ih =>
    rw [buildAllPathsLoop_skip fun d' hd ↦ by rw [hget] at hd; cases hd; exact hskip]
    refine ih hsound.tail (h.skip fun hdir ↦ ?_)
    exact hskip.resolve_right fun hne ↦ hne ((isDir_of_get? hget).mp hdir)
  | case4 paths walked ino parent queue d hget hwalk next ih =>
    have hd : d.kind = ifdir := by
      by_contra hne
      exact hwalk (.inr hne)
    rw [buildAllPathsLoop_walk hget hwalk]
    obtain ⟨p, rfl, hp, hk⟩ := hsound.queued List.mem_cons_self
    have hnext := h.walk fun q hq hr ↦ hone ino q p ((isDir_of_get? hget).mpr hd) hq hp hr hk
    rw [direntsOf_eq hget hd] at hnext
    refine ih (hsound.tail.pathEntries hp hk fun e he ↦ ?_) hnext
    rw [Entry, direntsOf_eq hget hd]
    exact he

/-- With nothing left to do, every name is known. -/
theorem Complete.mem {paths : Dict ℕ (List Text)} {walked : List ℕ}
    (h : Complete inodes blocks root paths walked []) {p : List Text} {k : ℕ} (hp : Plain p)
    (hk : Resolves inodes blocks p k) :
    rootedPath root p ∈ paths.getD k [] ∧ (isDir inodes k → k ∈ walked) := by
  induction p using List.reverseRecOn generalizing k with
  | nil =>
    obtain rfl : 2 = k := hk
    exact ⟨h.start.1, fun hd ↦ (h.start.2 hd).resolve_right List.not_mem_nil⟩
  | append_singleton p n ih =>
    obtain ⟨i, hi, he⟩ := leads_concat.mp hk
    obtain ⟨hplain, hn⟩ := plain_concat.mp hp
    obtain ⟨hpath, hdir⟩ := h.names ((ih hplain hi).2 he.isDir) hplain hi he hn
    exact ⟨hpath, fun hd ↦ (hdir hd).resolve_right List.not_mem_nil⟩

end Walk

section Components

/-- The components of a path below the root string. -/
def componentsBelow (root path : Text) : Option (List Text) :=
  let stem := root.rdropWhile (· = '/')
  if path = root then some []
  else if (stem ++ ['/']).isPrefixOf path then some ((path.drop (stem.length + 1)).splitOn '/')
  else none

/-- A name that can be found again in a path. -/
structure IsComponent (n : Text) : Prop where
  ne_nil : n ≠ []
  slash : '/' ∉ n

theorem rdropWhile_append_name {s n : Text} (h : IsComponent n) : (s ++ n).rdropWhile (· = '/') = s ++ n := by
  obtain ⟨m, c, rfl⟩ := (List.eq_nil_or_concat n).resolve_left h.ne_nil
  rw [List.concat_eq_append, ← List.append_assoc]
  refine List.rdropWhile_concat_neg _ _ _ ?_
  have hc : c ≠ '/' := fun hc ↦ h.slash (by simp [hc])
  simpa using hc

/-- A path below the root ends in a name. -/
theorem rdropWhile_rootedPath (root : Text) {p : List Text} (hne : p ≠ []) (h : ∀ n ∈ p, IsComponent n) :
    (rootedPath root p).rdropWhile (· = '/') = rootedPath root p := by
  obtain ⟨q, m, rfl⟩ := (List.eq_nil_or_concat p).resolve_left hne
  rw [List.concat_eq_append] at h ⊢
  have hlast : rootedPath root (q ++ [m]) = ((rootedPath root q).rdropWhile (· = '/') ++ ['/']) ++ m := by
    rw [rootedPath_concat, joinPath, List.append_assoc]
    rfl
  rw [hlast, rdropWhile_append_name (h m (by simp))]

theorem rootedPath_eq (root : Text) {p : List Text} (hne : p ≠ []) (h : ∀ n ∈ p, IsComponent n) :
    rootedPath root p = root.rdropWhile (· = '/') ++ '/' :: ['/'].intercalate p := by
  induction p using List.reverseRecOn with
  | nil => exact absurd rfl hne
  | append_singleton p n ih =>
    rw [rootedPath_concat, joinPath]
    by_cases hp : p = []
    · simp [hp]
    · have hpn : ∀ n ∈ p, IsComponent n := fun m hm ↦ h m (List.mem_append_left _ hm)
      rw [rdropWhile_rootedPath root hp hpn, ih hp hpn, intercalate_concat hp]
      simp

theorem componentsBelow_rootedPath (root : Text) {p : List Text} (h : ∀ n ∈ p, IsComponent n) :
    componentsBelow root (rootedPath root p) = some p := by
  unfold componentsBelow
  by_cases hp : p = []
  · rw [hp, rootedPath_nil, if_pos rfl]
  · have hpath := rootedPath_eq root hp h
    -- the root ends where its stem does, or in slashes
    have hne : rootedPath root p ≠ root := by
      intro heq
      have hstem := rdropWhile_rootedPath root hp h
      rw [heq] at hstem
      have hlen := congrArg List.length hpath
      rw [heq, hstem, List.length_append, List.length_cons] at hlen
      omega
    have hpre : (root.rdropWhile (· = '/') ++ ['/']).isPrefixOf (rootedPath root p) := by
      rw [hpath, List.isPrefixOf_iff_prefix]
      exact ⟨['/'].intercalate p, by simp⟩
    have hrest : (rootedPath root p).drop ((root.rdropWhile (· = '/')).length + 1) = ['/'].intercalate p := by
      rw [hpath, ← List.drop_drop, List.drop_left]
      rfl
    rw [if_neg hne, if_pos hpre, hrest, List.splitOn_intercalate '/' (fun n hn ↦ (h n hn).slash) hp]

theorem eq_rootedPath_of_componentsBelow {root path : Text} {p : List Text}
    (hp : componentsBelow root path = some p) (h : ∀ n ∈ p, n ≠ []) : path = rootedPath root p := by
  unfold componentsBelow at hp
  dsimp only at hp
  split at hp
  · rename_i hroot
    obtain rfl := Option.some.inj hp
    exact hroot
  · split at hp
    · rename_i hpre
      obtain ⟨rest, rfl⟩ := List.isPrefixOf_iff_prefix.mp hpre
      obtain rfl := Option.some.inj hp
      have hdrop : ((root.rdropWhile (· = '/') ++ ['/']) ++ rest).drop ((root.rdropWhile (· = '/')).length + 1) =
          rest := by
        rw [List.append_assoc, ← List.drop_drop, List.drop_left]
        rfl
      rw [hdrop] at h ⊢
      rw [rootedPath_eq root (List.splitOn_ne_nil '/' rest) fun n hn ↦ ⟨h n hn, notMem_of_mem_splitOn hn⟩,
        List.intercalate_splitOn]
      simp
    · cases hp

end Components

section Spec

variable {inodes : Inodes} {blocks : Blocks} {root : Text}

theorem sound_start : Sound inodes blocks root (Dict.set ∅ 2 [root]) [(2, root)] where
  resolves {k path} hmem := by
    rw [Dict.getD_set] at hmem
    split at hmem
    · rename_i hk
      exact ⟨[], List.mem_singleton.mp hmem, plain_nil, hk⟩
    · cases hmem
  queued hmem := by
    cases List.mem_singleton.mp hmem
    exact ⟨[], rfl, plain_nil, rfl⟩
  nodup k := by
    rw [Dict.getD_set]
    split
    · exact List.nodup_singleton root
    · exact List.nodup_nil
  named k hk := by
    obtain rfl := (Dict.mem_set.mp hk).resolve_right (Dict.not_mem_empty k)
    rw [Dict.getD_set, if_pos rfl]
    exact List.cons_ne_nil root []

theorem complete_start : Complete inodes blocks root (Dict.set ∅ 2 [root]) [] [(2, root)] where
  start := by
    rw [Dict.getD_set, if_pos rfl]
    exact ⟨List.mem_singleton_self root, fun _ ↦ .inr (List.mem_singleton_self _)⟩
  names hi := absurd hi List.not_mem_nil

theorem sound_buildAllPaths (inodes : Inodes) (blocks : Blocks) (root : Text) :
    Sound inodes blocks root (buildAllPaths inodes blocks root) [] := sound_loop sound_start

/-- The names of a path that resolves are names of entries. -/
theorem Resolves.mem {p : List Text} {k : ℕ} (h : Resolves inodes blocks p k) {n : Text} (hn : n ∈ p) :
    ∃ i j, Entry inodes blocks i n j := by
  induction p using List.reverseRecOn generalizing k with
  | nil => cases hn
  | append_singleton p m ih =>
    obtain ⟨i, hi, he⟩ := leads_concat.mp h
    rcases List.mem_append.mp hn with hn | hn
    · exact ih hi hn
    · obtain rfl := List.mem_singleton.mp hn
      exact ⟨i, k, he⟩

/-- Every directory but the root is named once, and the root not at all. -/
structure NamedOnce (inodes : Inodes) (blocks : Blocks) : Prop where
  once : ∀ k, isDir inodes k → k ≠ 2 → (naming inodes blocks k).length = 1
  root : naming inodes blocks 2 = []

theorem Plain.leads {p : List Text} {k : ℕ} (hp : Plain p) (h : Resolves inodes blocks p k) :
    Leads (fun i n j ↦ Entry inodes blocks i n j ∧ ¬ isDot n) 2 p k := by
  induction p using List.reverseRecOn generalizing k with
  | nil => exact h
  | append_singleton p n ih =>
    obtain ⟨i, hi, he⟩ := leads_concat.mp h
    obtain ⟨hplain, hn⟩ := plain_concat.mp hp
    exact leads_concat.mpr ⟨i, ih hplain hi, he, hn⟩

theorem NamedOnce.unique (h : NamedOnce inodes blocks) {i : ℕ} {p q : List Text} (hi : isDir inodes i)
    (hp : Plain p) (hq : Plain q) (hpi : Resolves inodes blocks p i) (hqi : Resolves inodes blocks q i) :
    p = q := by
  refine leads_unique (isDir inodes) ?_ ?_ ?_ hi (hp.leads hpi) (hq.leads hqi)
  · intro i n k he
    exact he.1.isDir
  · rintro i n ⟨he, hn⟩
    have hmem := he.mem_naming hn
    rw [h.root] at hmem
    cases hmem
  · rintro k i n i' n' hk ⟨he, hn⟩ ⟨he', hn'⟩
    have hmem := he.mem_naming hn
    have hmem' := he'.mem_naming hn'
    have hne : k ≠ 2 := by
      rintro rfl
      rw [h.root] at hmem
      cases hmem
    obtain ⟨x, hx⟩ := List.length_eq_one_iff.mp (h.once k hk hne)
    rw [hx, List.mem_singleton] at hmem hmem'
    cases hmem.trans hmem'.symm
    exact ⟨rfl, rfl⟩

theorem all_paths_resolve (inodes : Inodes) (blocks : Blocks) (root : Text)
    (hnames : ∀ i n k, Entry inodes blocks i n k → IsComponent n) :
    (∀ i path, path ∈ (buildAllPaths inodes blocks root).getD i [] →
      ∃ p, componentsBelow root path = some p ∧ Resolves inodes blocks p i) ∧
    (NamedOnce inodes blocks → ∀ i,
      (i ∈ buildAllPaths inodes blocks root ↔ (buildAllPaths inodes blocks root).getD i [] ≠ []) ∧
      ((buildAllPaths inodes blocks root).getD i []).Nodup ∧
      ∀ path, path ∈ (buildAllPaths inodes blocks root).getD i [] ↔
        ∃ p, componentsBelow root path = some p ∧ Plain p ∧ Resolves inodes blocks p i) := by
  have hcomponent : ∀ {p k}, Resolves inodes blocks p k → ∀ n ∈ p, IsComponent n := by
    intro p k hk n hn
    obtain ⟨i, j, he⟩ := hk.mem hn
    exact hnames i n j he
  have hsound := sound_buildAllPaths inodes blocks root
  have hfound : ∀ i path, path ∈ (buildAllPaths inodes blocks root).getD i [] →
      ∃ p, componentsBelow root path = some p ∧ Plain p ∧ Resolves inodes blocks p i := by
    intro i path hmem
    obtain ⟨p, rfl, hp, hi⟩ := hsound.resolves hmem
    exact ⟨p, componentsBelow_rootedPath root (hcomponent hi), hp, hi⟩
  refine ⟨fun i path hmem ↦ ?_, fun honce i ↦ ⟨⟨hsound.named i, fun hne ↦ ?_⟩, hsound.nodup i, fun path ↦
    ⟨hfound i path, ?_⟩⟩⟩
  · obtain ⟨p, hpath, -, hi⟩ := hfound i path hmem
    exact ⟨p, hpath, hi⟩
  · by_contra hnot
    rw [Dict.mem_def, not_not] at hnot
    rw [Dict.getD, hnot] at hne
    exact hne rfl
  · rintro ⟨p, hpath, hp, hi⟩
    obtain ⟨walked, hcomplete⟩ := complete_loop sound_start
      (fun i p q hd hp hq hpi hqi ↦ honce.unique hd hp hq hpi hqi) complete_start
    rw [eq_rootedPath_of_componentsBelow hpath fun n hn ↦ (hcomponent hi n hn).ne_nil]
    exact (hcomplete.mem hp hi).1

end Spec

section Example

theorem length_aliasBlock : ([0, 2, 0x61] ++ List.replicate 509 0 : List Byte).length = recordSize := by
  rw [List.length_append, List.length_replicate]
  rfl

/-- The block of a root directory whose only entry `a` is the root itself. -/
def aliasBlock : Record := ⟨[0, 2, 0x61] ++ List.replicate 509 0, length_aliasBlock⟩

/-- A root directory of one entry. -/
def rootInodes : Inodes := Dict.set ∅ 2 (parseDinode [0x41, 0xED, 0, 2, 0, 0, 0, 0, 0, 0, 0, 16])

def aliasBlocks : Blocks := Dict.set ∅ 2 (Dict.set ∅ 0 aliasBlock)

theorem direntsOf_rootInodes {blocks : Blocks} {i k : ℕ} {n : Text} (h : Entry rootInodes blocks i n k) :
    i = 2 := by
  obtain ⟨d, hd, -⟩ := mem_of_isDir h.isDir
  rw [rootInodes, Dict.get?_set] at hd
  split at hd
  · rename_i hi
    exact hi.symm
  · cases hd

theorem direntsOf_aliasBlocks : direntsOf rootInodes aliasBlocks 2 = [(2, ['a'])] := by decide +kernel

theorem isComponent_a : IsComponent ['a'] := ⟨by decide, by decide⟩

theorem entry_aliasBlocks {i k : ℕ} {n : Text} (h : Entry rootInodes aliasBlocks i n k) : n = ['a'] ∧ k = 2 := by
  obtain rfl := direntsOf_rootInodes h
  rw [Entry, direntsOf_aliasBlocks, List.mem_singleton] at h
  cases h
  exact ⟨rfl, rfl⟩

theorem isComponent_aliasBlocks : ∀ i n k, Entry rootInodes aliasBlocks i n k → IsComponent n :=
  fun _ _ _ h ↦ (entry_aliasBlocks h).1 ▸ isComponent_a

theorem buildAllPaths_alias : (buildAllPaths rootInodes aliasBlocks ['/']).getD 2 [] = [['/'], ['/', 'a']] := by
  have hget : rootInodes.get? 2 = some (parseDinode [0x41, 0xED, 0, 2, 0, 0, 0, 0, 0, 0, 0, 16]) := rfl
  have hkind : (parseDinode [0x41, 0xED, 0, 2, 0, 0, 0, 0, 0, 0, 0, 16]).kind = ifdir := by decide
  have hwalked : pathEntries rootInodes (Dict.set ∅ 2 [['/']]) [] ['/'] [(2, ['a'])] =
      (Dict.set ∅ 2 [['/'], ['/', 'a']], [(2, ['/', 'a'])]) := by decide +kernel
  rw [buildAllPaths, buildAllPathsLoop_walk hget (not_or.mpr ⟨List.not_mem_nil, not_not.mpr hkind⟩), ← direntsOf_eq hget hkind,
    direntsOf_aliasBlocks, hwalked, buildAllPathsLoop_skip fun d _ ↦ .inl (List.mem_singleton_self 2),
    buildAllPathsLoop]
  rfl

/-- A name of the root that is found resolves, although the walk stops there. -/
theorem all_paths_resolve_alias : ∃ p, componentsBelow ['/'] ['/', 'a'] = some p ∧
    Resolves rootInodes aliasBlocks p 2 := by
  refine (all_paths_resolve rootInodes aliasBlocks ['/'] isComponent_aliasBlocks).1 2 ['/', 'a'] ?_
  rw [buildAllPaths_alias]
  decide

/-- Every directory other than the root is named once (there is none), and yet a path is missed. -/
theorem root_alias_missed : (∀ i n k, Entry rootInodes aliasBlocks i n k → IsComponent n) ∧
    (∀ k, isDir rootInodes k → k ≠ 2 → (naming rootInodes aliasBlocks k).length = 1) ∧
    (∃ p, componentsBelow ['/'] ['/', 'a', '/', 'a'] = some p ∧ Plain p ∧ Resolves rootInodes aliasBlocks p 2) ∧
    ['/', 'a', '/', 'a'] ∉ (buildAllPaths rootInodes aliasBlocks ['/']).getD 2 [] := by
  refine ⟨isComponent_aliasBlocks, fun k hk hne ↦ ?_, ⟨[['a'], ['a']], by decide +kernel, ?_, ?_⟩, ?_⟩
  · obtain ⟨d, hd, -⟩ := mem_of_isDir hk
    rw [rootInodes, Dict.get?_set, if_neg (Ne.symm hne)] at hd
    cases hd
  · intro n hn
    simp only [List.mem_cons, List.not_mem_nil, or_false, or_self] at hn
    rw [hn]
    decide
  · have hentry : Entry rootInodes aliasBlocks 2 ['a'] 2 := by
      rw [Entry, direntsOf_aliasBlocks]
      exact List.mem_singleton_self _
    exact ⟨2, hentry, 2, hentry, rfl⟩
  · rw [buildAllPaths_alias]
    decide

end Example

end S8000.Dump
