import S8000.Dump.AllPaths

namespace S8000.Dump

open Foundation

section Queues

variable (inodes : Inodes)

/-- The queued directories that will be walked, each at its first place in the queue. -/
def fresh : List ℕ → List (ℕ × Text) → List (ℕ × Text)
  | _, [] => []
  | walked, (ino, path) :: queue =>
    if ino ∈ walked ∨ ¬ isDir inodes ino then fresh walked queue
    else (ino, path) :: fresh (ino :: walked) queue

theorem fresh_concat (walked : List ℕ) (queue : List (ℕ × Text)) (k : ℕ) (path : Text) :
    fresh inodes walked (queue ++ [(k, path)]) = fresh inodes walked queue ++
      if (k ∈ walked ∨ k ∈ queue.map Prod.fst) ∨ ¬ isDir inodes k then [] else [(k, path)] := by
  induction queue generalizing walked with
  | nil =>
    rw [List.nil_append, fresh, fresh]
    simp [fresh]
  | cons x queue ih =>
    obtain ⟨ino, p⟩ := x
    rw [List.cons_append, fresh, fresh]
    split
    · rename_i hskip
      rw [ih]
      congr 2
      -- the entry that is skipped has been walked, or is no directory
      apply propext
      rw [List.map_cons, List.mem_cons]
      constructor
      · rintro ((h | h) | h)
        · exact .inl (.inl h)
        · exact .inl (.inr (.inr h))
        · exact .inr h
      · rintro ((h | rfl | h) | h)
        · exact .inl (.inl h)
        · exact hskip.imp .inl id
        · exact .inl (.inr h)
        · exact .inr h
    · rw [ih, List.cons_append]
      simp only [List.mem_cons, List.map_cons, or_assoc, or_left_comm]

variable {inodes} {blocks : Blocks} {paths : Dict ℕ Text}

theorem buildPathsLoop_skip {ino : ℕ} {queue : List ℕ} (h : ¬ isDir inodes ino) :
    buildPathsLoop inodes blocks paths (ino :: queue) = buildPathsLoop inodes blocks paths queue := by
  rw [buildPathsLoop]
  split
  · rfl
  · rename_i d hget
    rw [if_pos fun hd ↦ h ((isDir_of_get? hget).mpr hd)]

theorem buildPathsLoop_walk {ino : ℕ} {queue : List ℕ} {d : Dinode} (hget : inodes.get? ino = some d)
    (hd : d.kind = ifdir) :
    buildPathsLoop inodes blocks paths (ino :: queue) =
      buildPathsLoop inodes blocks
        (nameEntries paths queue (paths.getD ino []) (entries d.size (blocks.getD ino ∅))).1
        (nameEntries paths queue (paths.getD ino []) (entries d.size (blocks.getD ino ∅))).2 := by
  rw [buildPathsLoop]
  split
  · rename_i hnone
    cases hnone.symm.trans hget
  · rename_i d' hget'
    obtain rfl := Option.some.inj (hget.symm.trans hget')
    rw [if_neg (not_not.mpr hd)]

/-- Without a directory in the queue the walk is over. -/
theorem buildPathsLoop_done {queue : List ℕ} (h : queue.filter (isDir inodes ·) = []) :
    buildPathsLoop inodes blocks paths queue = paths := by
  induction queue with
  | nil => rw [buildPathsLoop]
  | cons ino queue ih =>
    have hino : ¬ isDir inodes ino := by simpa using List.filter_eq_nil_iff.mp h ino List.mem_cons_self
    rw [List.filter_cons_of_neg (by simpa using hino)] at h
    rw [buildPathsLoop_skip hino, ih h]

/-- The walk goes on at the first directory of the queue. -/
theorem buildPathsLoop_next {queue rest : List ℕ} {ino : ℕ} (h : queue.filter (isDir inodes ·) = ino :: rest) :
    ∃ queue', queue' <:+ queue ∧ queue'.filter (isDir inodes ·) = rest ∧ ∀ blocks paths,
      buildPathsLoop inodes blocks paths queue = buildPathsLoop inodes blocks paths (ino :: queue') := by
  induction queue with
  | nil => cases h
  | cons k queue ih =>
    by_cases hk : isDir inodes k
    · rw [List.filter_cons_of_pos (by simpa using hk)] at h
      obtain ⟨rfl, hrest⟩ := List.cons.inj h
      exact ⟨queue, List.suffix_cons k queue, hrest, fun blocks paths ↦ rfl⟩
    · rw [List.filter_cons_of_neg (by simpa using hk)] at h
      obtain ⟨queue', hsuffix, hrest, hloop⟩ := ih h
      refine ⟨queue', hsuffix.trans (List.suffix_cons k queue), hrest, fun blocks paths ↦ ?_⟩
      rw [buildPathsLoop_skip hk, hloop]

end Queues

section Simulation

variable {inodes : Inodes} {blocks : Blocks} {paths : Dict ℕ Text} {queue : List ℕ}
  {all : Dict ℕ (List Text)} {walked : List ℕ} {allQueue : List (ℕ × Text)}

/-- The walk that names every inode once, next to the one that keeps all names. -/
structure InStep (inodes : Inodes) (paths : Dict ℕ Text) (queue : List ℕ) (all : Dict ℕ (List Text))
    (walked : List ℕ) (allQueue : List (ℕ × Text)) : Prop where
  names : ∀ k, paths.get? k = (all.getD k []).head?
  todo : (queue.filter (isDir inodes ·)).map (fun k ↦ (k, paths.getD k [])) = fresh inodes walked allQueue
  met : ∀ k, isDir inodes k → (k ∈ paths ↔ k ∈ walked ∨ k ∈ allQueue.map Prod.fst)
  queued : ∀ k ∈ queue, k ∈ paths

/-- A further name of an inode that has one. -/
theorem InStep.again (h : InStep inodes paths queue all walked allQueue) {k : ℕ} (hk : k ∈ paths) (path : Text) :
    InStep inodes paths queue (addPath all k path) walked
      (if isDir inodes k then allQueue ++ [(k, path)] else allQueue) where
  names j := by
    rw [h.names, getD_addPath]
    split
    · rename_i hj
      subst hj
      have hne : all.getD k [] ≠ [] := by
        intro hnil
        have hnone := h.names k
        rw [hnil] at hnone
        exact hk hnone
      split
      · rfl
      · rw [List.head?_append_of_ne_nil _ hne]
    · rfl
  todo := by
    rw [h.todo]
    split
    · rename_i hdir
      rw [fresh_concat, if_pos (.inl ((h.met k hdir).mp hk)), List.append_nil]
    · rfl
  met j hj := by
    rw [h.met j hj]
    split
    · rename_i hdir
      rw [List.map_append, List.mem_append]
      constructor
      · exact Or.imp_right .inl
      · rintro (hw | hq | hq)
        · exact .inl hw
        · exact .inr hq
        · rw [List.map_singleton, List.mem_singleton] at hq
          exact (h.met j hj).mp (hq ▸ hk)
    · rfl
  queued := h.queued

/-- The first name of an inode. -/
theorem InStep.first (h : InStep inodes paths queue all walked allQueue) {k : ℕ} (hk : k ∉ paths) (path : Text) :
    InStep inodes (paths.set k path) (queue ++ [k]) (addPath all k path) walked
      (if isDir inodes k then allQueue ++ [(k, path)] else allQueue) where
  names j := by
    rw [Dict.get?_set, getD_addPath]
    split
    · have hnil : all.getD k [] = [] := by
        have hnone := h.names k
        rw [Dict.mem_def, not_not] at hk
        rw [hk] at hnone
        exact List.head?_eq_none_iff.mp hnone.symm
      rw [hnil, if_neg List.not_mem_nil]
      rfl
    · exact h.names j
  todo := by
    -- the names of the queued inodes stay
    have hkept : (queue.filter (isDir inodes ·)).map (fun j ↦ (j, (paths.set k path).getD j [])) =
        fresh inodes walked allQueue := by
      rw [← h.todo]
      refine List.map_congr_left fun j hj ↦ ?_
      have hne : k ≠ j := by
        rintro rfl
        exact hk (h.queued k (List.mem_of_mem_filter hj))
      rw [Dict.getD_set, if_neg hne]
    rw [List.filter_append, List.map_append, hkept]
    split
    · rename_i hdir
      have hnew : ¬ ((k ∈ walked ∨ k ∈ allQueue.map Prod.fst) ∨ ¬ isDir inodes k) := by
        rw [not_or, not_not]
        exact ⟨fun hmet ↦ hk ((h.met k hdir).mpr hmet), hdir⟩
      rw [fresh_concat, if_neg hnew, List.filter_cons_of_pos (by simpa using hdir), List.filter_nil,
        List.map_singleton, Dict.getD_set, if_pos rfl]
    · rename_i hdir
      rw [List.filter_cons_of_neg (by simpa using hdir), List.filter_nil, List.map_nil, List.append_nil]
  met j hj := by
    rw [Dict.mem_set, h.met j hj]
    split
    · rw [List.map_append, List.mem_append, List.map_singleton, List.mem_singleton]
      constructor
      · rintro (rfl | hw | hq)
        · exact .inr (.inr rfl)
        · exact .inl hw
        · exact .inr (.inl hq)
      · rintro (hw | hq | rfl)
        · exact .inr (.inl hw)
        · exact .inr (.inr hq)
        · exact .inl rfl
    · rename_i hdir
      refine or_iff_right ?_
      rintro rfl
      exact hdir hj
  queued j hj := by
    rw [Dict.mem_set]
    rcases List.mem_append.mp hj with hj | hj
    · exact .inr (h.queued j hj)
    · exact .inl (List.mem_singleton.mp hj)

/-- One directory, whose entries both walks read from the same parent. -/
theorem InStep.entries (h : InStep inodes paths queue all walked allQueue) (parent : Text) (es : List (ℕ × Text)) :
    InStep inodes (nameEntries paths queue parent es).1 (nameEntries paths queue parent es).2
      (pathEntries inodes all allQueue parent es).1 walked (pathEntries inodes all allQueue parent es).2 := by
  induction es generalizing paths queue all allQueue with
  | nil => exact h
  | cons e es ih =>
    obtain ⟨cino, nm⟩ := e
    rw [nameEntries, pathEntries]
    by_cases hdot : isDot nm
    · rw [if_pos (.inl hdot), if_pos hdot]
      exact ih h
    · rw [if_neg hdot]
      by_cases hmem : cino ∈ paths
      · rw [if_pos (.inr hmem)]
        exact ih (h.again hmem (joinPath parent nm))
      · rw [if_neg (not_or.mpr ⟨hdot, hmem⟩)]
        exact ih (h.first hmem (joinPath parent nm))

/-- An element of the longer queue that is not walked. -/
theorem InStep.pass (h : InStep inodes paths queue all walked allQueue) {ino : ℕ} {parent : Text}
    {rest : List (ℕ × Text)} (hq : allQueue = (ino, parent) :: rest)
    (hskip : ino ∈ walked ∨ ¬ isDir inodes ino) : InStep inodes paths queue all walked rest where
  names := h.names
  todo := by rw [h.todo, hq, fresh, if_pos hskip]
  met j hj := by
    rw [h.met j hj, hq, List.map_cons, List.mem_cons]
    constructor
    · rintro (hw | rfl | hr)
      · exact .inl hw
      · exact .inl (hskip.resolve_right (not_not.mpr hj))
      · exact .inr hr
    · exact Or.imp_right .inr
  queued := h.queued

/-- Both walks come to the same directory, under the same name. -/
theorem InStep.enter {ino : ℕ} {parent : Text} (h : InStep inodes paths queue all walked ((ino, parent) :: allQueue))
    (hw : ino ∉ walked) (hd : isDir inodes ino) :
    ∃ queue', parent = paths.getD ino [] ∧ InStep inodes paths queue' all (ino :: walked) allQueue ∧
      ∀ blocks, buildPathsLoop inodes blocks paths queue = buildPathsLoop inodes blocks paths (ino :: queue') := by
  have htodo := h.todo
  rw [fresh, if_neg (not_or.mpr ⟨hw, not_not.mpr hd⟩)] at htodo
  obtain ⟨k, rest, hfilter, hhead, hrest⟩ := List.map_eq_cons_iff.mp htodo
  cases hhead
  obtain ⟨queue', hsuffix, hqueue', hloop⟩ := buildPathsLoop_next hfilter
  refine ⟨queue', rfl, ⟨h.names, by rw [hqueue', hrest], fun j hj ↦ ?_, fun j hj ↦ h.queued j (hsuffix.subset hj)⟩,
    fun blocks ↦ hloop blocks paths⟩
  rw [h.met j hj, List.map_cons, List.mem_cons, List.mem_cons, or_left_comm, or_assoc]

/-- Run to their ends, the walks know the same first names. -/
theorem InStep.loop (h : InStep inodes paths queue all walked allQueue) (k : ℕ) :
    (buildPathsLoop inodes blocks paths queue).get? k =
      ((buildAllPathsLoop inodes blocks all walked allQueue).getD k []).head? := by
  induction all, walked, allQueue using buildAllPathsLoop.induct inodes blocks generalizing paths queue with
  | case1 all walked =>
    have hnone := h.todo
    rw [fresh, List.map_eq_nil_iff] at hnone
    rw [buildPathsLoop_done hnone, buildAllPathsLoop]
    exact h.names k
  | case2 all walked ino parent allQueue hget ih =>
    rw [buildAllPathsLoop_skip fun d hd ↦ by rw [hget] at hd; cases hd]
    refine ih (h.pass rfl (.inr fun hdir ↦ ?_))
    obtain ⟨d, hd, -⟩ := mem_of_isDir hdir
    cases hget.symm.trans hd
  | case3 all walked ino parent allQueue d hget hskip ih =>
    rw [buildAllPathsLoop_skip fun d' hd ↦ by rw [hget] at hd; cases hd; exact hskip]
    refine ih (h.pass rfl (hskip.imp_right fun hne hdir ↦ ?_))
    exact hne ((isDir_of_get? hget).mp hdir)
  | case4 all walked ino parent allQueue d hget hwalk next =>
    rename_i ih
    obtain ⟨hw, hd⟩ := not_or.mp hwalk
    rw [not_not] at hd
    obtain ⟨queue', rfl, hstep, hloop⟩ := h.enter hw ((isDir_of_get? hget).mpr hd)
    rw [hloop, buildPathsLoop_walk hget hd, buildAllPathsLoop_walk hget hwalk]
    exact ih (hstep.entries _ _)

theorem inStep_start (inodes : Inodes) (root : Text) :
    InStep inodes (Dict.set ∅ 2 root) [2] (Dict.set ∅ 2 [root]) [] [(2, root)] where
  names k := by
    rw [Dict.get?_set, Dict.getD_set]
    split
    · rfl
    · rfl
  todo := by
    by_cases hd : isDir inodes 2
    · simp [fresh, hd, Dict.getD_set]
    · simp [fresh, hd]
  met k _ := by simp [Dict.mem_set]
  queued k hk := by
    rw [List.mem_singleton.mp hk]
    exact Dict.mem_set.mpr (.inl rfl)

/-- The listing names the inodes that the restore names, each by the first of its names. -/
theorem first_name_agrees (inodes : Inodes) (blocks : Blocks) (root : Text) (i : ℕ) :
    (i ∈ buildPaths inodes blocks root ↔ i ∈ buildAllPaths inodes blocks root) ∧
      (buildPaths inodes blocks root).get? i = ((buildAllPaths inodes blocks root).getD i []).head? := by
  have hfirst : (buildPaths inodes blocks root).get? i = ((buildAllPaths inodes blocks root).getD i []).head? :=
    (inStep_start inodes root).loop i
  refine ⟨?_, hfirst⟩
  rw [Dict.mem_def, hfirst, ne_eq, List.head?_eq_none_iff]
  constructor
  · intro hne hnot
    rw [Dict.getD, hnot] at hne
    exact hne rfl
  · exact (sound_buildAllPaths inodes blocks root).named i

end Simulation

end S8000.Dump
