import S8000.Filsys.Rdwri

namespace S8000.Filsys

open Foundation Foundation.Bytes Foundation.Buffer

section Code

/-- An entry of an indirect block, which is read anew each time. -/
def clearEntry (next : Volume → ℤ → Volume) (bn : ℤ) (i : ℕ) (v : Volume) : Volume :=
  if bap (v.view bn) i = 0 then v else next v (bap (v.view bn) i)

/-- `tloop`, with the number of levels of indirection below a block; without any it is the call of `free`. -/
def tloop : ℕ → Volume → ℤ → Volume
  | 0, v, bn => free v bn
  | level + 1, v, bn => free ((List.range NINDIR).foldr (clearEntry (tloop level) bn) v) bn

def clearAddress (ip : File) (i : ℕ) (v : Volume) : Volume :=
  if ip.iAddr i = 0 then v else tloop (i - (NADDR - 4)) v (ip.iAddr i)

def itrunc (v : Volume) (ip : File) : Volume × File :=
  ((List.range NADDR).foldr (clearAddress ip) v, { iSize := 0, iAddr := fun _ ↦ 0 })

end Code

section Frees

variable {isize fsize : ℤ} {nobody : List ℤ} {s : State} {w u : Volume} {l l' : List ℤ} {b bn : ℤ} {ip : File}
  {level : ℕ}

/-- What is left to the files when some blocks go back. -/
def State.without (s : State) (w : Volume) (l : List ℤ) : State := ⟨w, s.owned.filter (· ∉ l)⟩

theorem mem_without {c : ℤ} : c ∈ (s.without w l).owned ↔ c ∈ s.owned ∧ c ∉ l := by
  rw [State.without, List.mem_filter, decide_eq_true_iff]

theorem without_congr (h : ∀ c, c ∈ l' ↔ c ∈ l) : s.without w l' = s.without w l :=
  congrArg (State.mk w) (List.filter_congr fun c _ ↦ decide_eq_decide.mpr (not_congr (h c)))

theorem without_nil (s : State) : s.without s.v [] = s :=
  congrArg (State.mk s.v) (List.filter_eq_self.mpr fun _ _ ↦ decide_eq_true List.not_mem_nil)

theorem without_without : (s.without w l).without u l' = s.without u (l ++ l') := by
  refine congrArg (State.mk u) ?_
  rw [State.without, List.filter_filter]
  refine List.filter_congr fun c _ ↦ ?_
  rw [← Bool.decide_and]
  refine decide_eq_decide.mpr ?_
  rw [List.mem_append, not_or, and_comm]

/-- Blocks go back to the free list, and those that stay do not change. -/
structure Frees (s : State) (w : Volume) (l : List ℤ) : Prop where
  run : Moves s (s.without w l)
  frame : ∀ c ∈ s.owned, c ∉ l → w.view c = s.v.view c

theorem Frees.nil (s : State) : Frees s s.v [] := by
  refine ⟨?_, fun _ _ _ ↦ rfl⟩
  rw [without_nil]
  exact .start

theorem Frees.congr (h : Frees s w l) (hsame : ∀ c, c ∈ l' ↔ c ∈ l) : Frees s w l' := by
  refine ⟨?_, fun c hc hmem ↦ h.frame c hc fun hmem' ↦ hmem ((hsame c).mpr hmem')⟩
  rw [without_congr hsame]
  exact h.run

theorem Frees.trans (h : Frees s w l) (h' : Frees (s.without w l) u l') : Frees s u (l ++ l') := by
  refine ⟨?_, fun c hc hmem ↦ ?_⟩
  · rw [← without_without]
    exact h.run.trans h'.run
  · obtain ⟨hl, hl'⟩ := not_or.mp fun hor ↦ hmem (List.mem_append.mpr hor)
    have hview : u.view c = w.view c := h'.frame c (mem_without.mpr ⟨hc, hl⟩) hl'
    rw [hview, h.frame c hc hl]

/-- A call of `free`. -/
theorem Kept.frees (h : Kept isize fsize nobody s) (hb : b ∈ s.owned) (hfree : Filsys.free s.v b = w) :
    Frees s w [b] := by
  have hstate : s.without w [b] = ⟨w, s.owned.filter (· ≠ b)⟩ :=
    congrArg (State.mk w) (List.filter_congr fun c _ ↦ decide_eq_decide.mpr (not_congr List.mem_singleton))
  obtain ⟨stack, hlist, hpartition⟩ := h.sound.accounts.blocks
  have hmem : b ∈ s.owned ++ nobody := List.mem_append_left _ hb
  obtain ⟨hlow, hhigh⟩ := h.sound.owned_range b hmem
  have hgood : ¬ badblock s.v.fp b := by
    rw [badblock, h.sound.accounts.isize_eq, h.sound.accounts.fsize_eq]
    omega
  obtain ⟨-, -, -, -, hframe⟩ := free_push hlist h.sound.pos h.sound.list.le hgood ((hpartition b hlow hhigh).mp hmem)
  rw [hfree] at hframe
  refine ⟨?_, fun c _ hmem ↦ ?_⟩
  · rw [hstate]
    exact .free .start hb hfree
  · obtain ⟨hdisk, hcache⟩ := hframe c fun heq ↦ hmem (List.mem_singleton.mpr heq)
    rw [Volume.view, Volume.view, hdisk, hcache]

/-- Parts that have no block in common go back one after the other. -/
theorem frees_foldr {f : ℕ → Volume → Volume} {part : ℕ → List ℤ} {all is : List ℕ} (hsub : ∀ i ∈ is, i ∈ all)
    (hnodup : is.Nodup) (hapart : ∀ i ∈ all, ∀ j ∈ all, i ≠ j → (part i).Disjoint (part j))
    (hstep : ∀ i ∈ all, ∀ w l, Frees s w l → (∀ c ∈ l, c ∈ all.flatMap part) → (∀ c ∈ part i, c ∉ l) →
      Frees (s.without w l) (f i w) (part i)) :
    Frees s (is.foldr f s.v) (is.flatMap part) := by
  induction is with
  | nil => exact .nil s
  | cons i is ih =>
    obtain ⟨hi, hnodup⟩ := List.nodup_cons.mp hnodup
    have hrest := ih (fun j hj ↦ hsub j (List.mem_cons_of_mem _ hj)) hnodup
    have hall := hsub i List.mem_cons_self
    have hnew : ∀ c ∈ part i, c ∉ is.flatMap part := by
      intro c hc hmem
      obtain ⟨j, hj, hc'⟩ := List.mem_flatMap.mp hmem
      exact hapart i hall j (hsub j (List.mem_cons_of_mem _ hj)) (fun heq ↦ hi (heq ▸ hj)) hc hc'
    have hold : ∀ c ∈ is.flatMap part, c ∈ all.flatMap part := by
      intro c hc
      obtain ⟨j, hj, hc'⟩ := List.mem_flatMap.mp hc
      exact List.mem_flatMap.mpr ⟨j, hsub j (List.mem_cons_of_mem _ hj), hc'⟩
    refine (hrest.trans (hstep i hall _ _ hrest hold hnew)).congr fun c ↦ ?_
    rw [List.flatMap_cons, List.mem_append, List.mem_append, or_comm]

/-- The blocks below an address are as they were when others have gone back. -/
theorem Frees.tree_eq (h : Frees s w l) (howned : ∀ c ∈ tree s.v.view level b, c ∈ s.owned)
    (hapart : ∀ c ∈ tree s.v.view level b, c ∉ l) :
    tree w.view level b = tree s.v.view level b ∧ ∀ c ∈ tree w.view level b, c ∈ (s.without w l).owned := by
  have htree : tree w.view level b = tree s.v.view level b :=
    tree_congr fun c hc ↦ h.frame c (howned c hc) (hapart c hc)
  rw [htree]
  exact ⟨rfl, fun c hc ↦ mem_without.mpr ⟨howned c hc, hapart c hc⟩⟩

/-- By induction on the levels of indirection. -/
theorem tloop_spec (h : Kept isize fsize nobody s) (hbn : bn ≠ 0) (hnodup : (tree s.v.view level bn).Nodup)
    (howned : ∀ c ∈ tree s.v.view level bn, c ∈ s.owned) :
    Frees s (tloop level s.v bn) (tree s.v.view level bn) := by
  induction level generalizing s bn with
  | zero =>
    have htree : tree s.v.view 0 bn = [bn] := if_neg hbn
    rw [htree] at howned ⊢
    exact h.frees (howned bn (List.mem_singleton_self bn)) rfl
  | succ level ih =>
    obtain ⟨hself, hall, hapart⟩ := IndexTree.nodup_succ hbn hnodup
    have hbnown : bn ∈ s.owned := howned bn (IndexTree.mem_nodes_self hbn _)
    obtain ⟨part, hpart⟩ : ∃ part : ℕ → List ℤ, ∀ k, part k = tree s.v.view level (bap (s.v.view bn) k) :=
      ⟨_, fun _ ↦ rfl⟩
    have hout : bn ∉ (List.range NINDIR).flatMap part := by
      intro hmem
      obtain ⟨k, hk, hmem'⟩ := List.mem_flatMap.mp hmem
      rw [hpart] at hmem'
      exact hself k (List.mem_range.mp hk) hmem'
    have hfold : Frees s ((List.range NINDIR).foldr (clearEntry (tloop level) bn) s.v)
        ((List.range NINDIR).flatMap part) := by
      refine frees_foldr (fun i hi ↦ hi) List.nodup_range (fun i hi j hj hne ↦ ?_) fun i hi w l hfrees hl hnew ↦ ?_
      · rw [hpart, hpart]
        exact hapart i (List.mem_range.mp hi) j (List.mem_range.mp hj) hne
      · have hi' := List.mem_range.mp hi
        have hview : w.view bn = s.v.view bn := hfrees.frame bn hbnown fun hmem ↦ hout (hl bn hmem)
        rw [hpart] at hnew ⊢
        obtain ⟨htree, howned'⟩ := hfrees.tree_eq (fun c hc ↦ howned c (mem_tree_child hbn hi' hc)) hnew
        rw [clearEntry, hview]
        by_cases hzero : bap (s.v.view bn) i = 0
        · have hempty : tree s.v.view level 0 = [] := IndexTree.nodes_null level
          rw [if_pos hzero, hzero, hempty]
          exact .nil (s.without w l)
        · rw [if_neg hzero, ← htree]
          exact ih (h.moves hfrees.run) hzero (htree.symm ▸ hall i hi') howned'
    have hlast := (h.moves hfold.run).frees (mem_without.mpr ⟨hbnown, hout⟩) rfl
    refine (hfold.trans hlast).congr fun c ↦ ?_
    have htree : tree s.v.view (level + 1) bn = bn :: (List.range NINDIR).flatMap part := by
      refine (IndexTree.nodes_succ hbn).trans (congrArg (bn :: ·) (List.flatMap_congr fun k _ ↦ ?_))
      rw [hpart]
      rfl
    rw [htree, List.mem_cons, List.mem_append, List.mem_singleton, or_comm]

/-- `itrunc` gives back all blocks of the file, and no other. -/
theorem itrunc_spec (h : Kept isize fsize nobody s) (hnodup : (fileTree s.v.view ip).Nodup)
    (howned : ∀ c ∈ fileTree s.v.view ip, c ∈ s.owned) : Frees s (itrunc s.v ip).1 (fileTree s.v.view ip) := by
  obtain ⟨hall, hapart⟩ := IndexTree.nodup_flatMap_range hnodup
  refine frees_foldr (fun i hi ↦ hi) List.nodup_range
    (fun i hi j hj hne ↦ hapart i (List.mem_range.mp hi) j (List.mem_range.mp hj) hne) fun i hi w l hfrees _ hnew ↦ ?_
  have hi' := List.mem_range.mp hi
  obtain ⟨htree, howned'⟩ := hfrees.tree_eq (fun c hc ↦ howned c (mem_fileTree hi' hc)) hnew
  rw [clearAddress]
  by_cases hzero : ip.iAddr i = 0
  · have hempty : tree s.v.view (i - (NADDR - 4)) 0 = [] := IndexTree.nodes_null _
    rw [if_pos hzero, hzero, hempty]
    exact .nil (s.without w l)
  · rw [if_neg hzero, ← htree]
    exact tloop_spec (h.moves hfrees.run) hzero (htree.symm ▸ hall i hi') howned'

theorem fileTree_itrunc (view : ℤ → Buffer) (v : Volume) (ip : File) : fileTree view (itrunc v ip).2 = [] :=
  List.flatMap_eq_nil_iff.mpr fun _ _ ↦ IndexTree.nodes_null _

end Frees

end S8000.Filsys
