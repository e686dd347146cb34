import S8000.Filsys.FreeList

namespace S8000.Filsys

open Foundation Foundation.Bytes Foundation.Buffer

variable {clean : ℤ → Prop} {disk : ℤ → Buffer} {fp : Superblock} {stack rest : List ℤ} {b : ℤ}

theorem getfs_eq (h : sNfree fp ≤ NICFREE) (h' : sNinode fp ≤ NICINOD) : getfs fp = fp :=
  if_neg (not_or.mpr ⟨not_lt.mpr h, not_lt.mpr h'⟩)

theorem badblock_congr {fp' : Superblock} (h : KeepsInodes fp fp') (b : ℤ) : badblock fp' b ↔ badblock fp b := by
  have hisize : sIsize fp' = sIsize fp := short_congr (h 0 (by decide)) (h 1 (by decide))
  have hfsize : sFsize fp' = sFsize fp := long_congr fun i hi ↦ h (2 + i) (.inl (by omega))
  rw [badblock, badblock, hisize, hfsize]

section Setters

theorem keeps_setNfree (fp : Superblock) (v : ℤ) : KeepsInodes fp (setNfree fp v) :=
  fun _ hi ↦ setShort_apply_of_apart (by omega)

theorem keeps_setFree (fp : Superblock) {k : ℕ} (hk : k < 50) (v : ℤ) : KeepsInodes fp (setFree fp k v) :=
  fun _ hi ↦ setLong_apply_of_apart (by omega)

theorem keeps_setTfree (fp : Superblock) (v : ℤ) : KeepsInodes fp (setTfree fp v) :=
  fun _ hi ↦ setLong_apply_of_apart (by omega)

theorem keeps_setFmod (fp : Superblock) (v : Byte) : KeepsInodes fp (setFmod fp v) :=
  fun _ hi ↦ setFmod_apply_of_ne fp v (by omega)

theorem keeps_loadFree (fp : Superblock) (b : Buffer) : KeepsInodes fp (loadFree fp b) := by
  intro i hi
  refine put_apply_of_apart ?_
  rw [Buffer.get, List.length_map, List.length_range]
  omega

end Setters

section Total

/-- The list alone, without the total. -/
theorem entries_congr_fp {fp' : Superblock} (h : ∀ i, 6 ≤ i → i < 208 → fp' i = fp i) (hle : sNfree fp ≤ NICFREE) :
    entries fp' 6 = entries fp 6 :=
  (entries_congr (fun i hi ↦ (h (6 + i) (by omega) (by omega)).symm) hle).symm

theorem sNfree_congr {fp' : Superblock} (h : ∀ i, 6 ≤ i → i < 208 → fp' i = fp i) : sNfree fp' = sNfree fp :=
  short_congr (h 6 (by decide) (by decide)) (h 7 (by decide) (by decide))

end Total

section Top

/-- The list without its last number. -/
def popped (fp : Superblock) : Superblock := setNfree fp (sNfree fp - 1)

theorem sNfree_popped (h : 0 < sNfree fp) (hle : sNfree fp ≤ NICFREE) : sNfree (popped fp) = sNfree fp - 1 := by
  rw [NICFREE] at hle
  exact short_setShort (by omega)

theorem sFree_popped (fp : Superblock) (k : ℕ) : sFree (popped fp) k = long fp (6 + 2 + 4 * k) :=
  long_setShort_of_apart (by omega)

theorem entries_eq_popped (h : 0 < sNfree fp) (hle : sNfree fp ≤ NICFREE) :
    entries fp 6 = entries (popped fp) 6 ++ [long fp (6 + 2 + 4 * (sNfree fp - 1).toNat)] :=
  entries_of_pos h hle

theorem entries_popped (h : 0 < sNfree fp) (hle : sNfree fp ≤ NICFREE) :
    entries fp 6 = entries (popped fp) 6 ++ [sFree (popped fp) (sNfree (popped fp)).toNat] := by
  rw [sFree_popped, sNfree_popped h hle]
  exact entries_eq_popped h hle

theorem FreeList.pos (h : FreeList clean disk fp (rest ++ [b])) : 0 < sNfree fp := by
  by_contra hle
  have hlen : (entries fp 6).length = (sNfree fp).toNat := length_entries fp 6
  have hnil : entries fp 6 = [] := List.length_eq_zero_iff.mp (by omega)
  have hchain := h.chain
  rw [hnil] at hchain
  exact absurd hchain.of_nil (by simp)

/-- A list with a number on top of a stack, where the number stands. -/
theorem Chain.top {l : List ℤ} {a : ℤ} (h : Chain clean disk (l ++ [a]) (rest ++ [b])) :
    a = b ∧ (l ≠ [] ∧ Chain clean disk l rest ∨
      l = [] ∧ clean b ∧ short (disk b) 0 = NICFREE ∧ Chain clean disk (entries (disk b) 0) rest) := by
  by_cases hl : l = []
  · subst hl
    rw [List.nil_append] at h
    obtain ⟨-, hstack⟩ | ⟨-, hc, hcount, rest', hstack, hbelow⟩ := h.bottom
    · exact absurd hstack (by simp)
    · obtain ⟨rfl, heq⟩ := List.append_inj' hstack rfl
      obtain rfl := (List.cons.inj heq).1
      exact ⟨rfl, .inr ⟨rfl, hc, hcount, hbelow⟩⟩
  · obtain ⟨rest', hstack, hbelow⟩ := h.pop hl
    obtain ⟨rfl, heq⟩ := List.append_inj' hstack rfl
    exact ⟨(List.cons.inj heq).1.symm, .inl ⟨hl, hbelow⟩⟩

/-- The top of a stack stands last in the list; what is below it is in the list or in the block. -/
theorem FreeList.top (h : FreeList clean disk fp (rest ++ [b])) :
    sFree (popped fp) (sNfree (popped fp)).toNat = b ∧
      (0 < sNfree (popped fp) ∧ Chain clean disk (entries (popped fp) 6) rest ∨
        sNfree (popped fp) = 0 ∧ clean b ∧ short (disk b) 0 = NICFREE ∧ Chain clean disk (entries (disk b) 0) rest) := by
  have hpos := h.pos
  have hchain := h.chain
  rw [entries_popped hpos h.le] at hchain
  have hlen : (entries (popped fp) 6).length = (sNfree (popped fp)).toNat := length_entries _ 6
  have hnonneg : 0 ≤ sNfree (popped fp) := by
    rw [sNfree_popped hpos h.le]
    omega
  obtain ⟨htop, ⟨hne, hbelow⟩ | ⟨hnil, hc, hcount, hbelow⟩⟩ := hchain.top
  · have hlength := List.length_pos_iff.mpr hne
    exact ⟨htop, .inl ⟨by omega, hbelow⟩⟩
  · rw [hnil, List.length_nil] at hlen
    exact ⟨htop, .inr ⟨by omega, hc, hcount, hbelow⟩⟩

theorem FreeList.bottom (h : FreeList clean disk fp []) :
    sNfree fp ≤ 0 ∨ sFree (popped fp) (sNfree (popped fp)).toNat = 0 := by
  by_cases hpos : 0 < sNfree fp
  · right
    have hchain := h.chain
    rw [entries_popped hpos h.le] at hchain
    by_cases hone : entries (popped fp) 6 = []
    · rw [hone, List.nil_append] at hchain
      obtain ⟨hzero, -⟩ | ⟨-, -, -, rest', hstack, -⟩ := hchain.bottom
      · exact hzero
      · simp at hstack
    · obtain ⟨rest', hstack, -⟩ := hchain.pop hone
      simp at hstack
  · exact .inl (not_lt.mp hpos)

theorem pick_of_top (h : FreeList clean disk fp (rest ++ [b])) (hpos : 0 < sIsize fp) :
    pick fp = (popped fp, some b) := by
  obtain ⟨htop, -⟩ := h.top
  have hrange := h.range b (by simp)
  have hne : b ≠ 0 := by
    rintro rfl
    exact hrange (.inl hpos)
  rw [pick, dif_neg (not_le.mpr h.pos), dif_neg (not_lt.mpr h.le)]
  change (if sFree (popped fp) (sNfree (popped fp)).toNat = 0 then (popped fp, none) else
    if badblock (popped fp) (sFree (popped fp) (sNfree (popped fp)).toNat) then pick (popped fp)
    else (popped fp, some (sFree (popped fp) (sNfree (popped fp)).toNat))) = _
  have hbad : ¬ badblock (popped fp) b := (badblock_congr (keeps_setNfree fp _) b).not.mpr hrange
  rw [htop, if_neg hne, if_neg hbad]

theorem pick_of_empty (h : FreeList clean disk fp []) : ∃ fp', pick fp = (fp', none) ∧ (fp' = fp ∨ fp' = popped fp) := by
  by_cases hpos : 0 < sNfree fp
  · have hzero := h.bottom.resolve_left (not_le.mpr hpos)
    refine ⟨popped fp, ?_, .inr rfl⟩
    rw [pick, dif_neg (not_le.mpr hpos), dif_neg (not_lt.mpr h.le)]
    exact if_pos hzero
  · refine ⟨fp, ?_, .inl rfl⟩
    rw [pick, dif_pos (not_lt.mp hpos)]

end Top

section Alloc

theorem FreeList.of_keeps {fp' : Superblock} (h : FreeList clean disk fp stack) (hsame : KeepsBlocks fp fp') :
    FreeList clean disk fp' stack := by
  have hlist (i : ℕ) (hi : 6 ≤ i) (hlt : i < 208) : fp' i = fp i := hsame i (.inl hlt)
  have hnfree : sNfree fp' = sNfree fp := sNfree_congr hlist
  have hisize : sIsize fp' = sIsize fp := short_congr (hsame 0 (.inl (by decide))) (hsame 1 (.inl (by decide)))
  have hfsize : sFsize fp' = sFsize fp := long_congr fun i hi ↦ hsame (2 + i) (.inl (by omega))
  have htfree : sTfree fp' = sTfree fp := long_congr fun i hi ↦ hsame (418 + i) (by omega)
  refine ⟨hnfree ▸ h.nonneg, hnfree ▸ h.le, ?_, ?_, h.nodup, htfree.trans h.total⟩
  · rw [entries_congr_fp hlist h.le]
    exact h.chain
  · intro b hb
    rw [badblock, hisize, hfsize]
    exact h.range b hb

/-- The list after its last number is taken, read anew when nothing is left of it. -/
theorem FreeList.loaded {c : Buffer} (h : FreeList clean disk fp (rest ++ [b])) (hc : clean b → c = disk b) :
    let fp' := if sNfree (popped fp) ≤ 0 then loadFree (popped fp) c else popped fp
    0 < sNfree fp' ∧ sNfree fp' ≤ NICFREE ∧ Chain clean disk (entries fp' 6) rest ∧ KeepsInodes fp fp' ∧
      sTfree fp' = sTfree fp := by
  have hkeeps : KeepsInodes fp (popped fp) := keeps_setNfree fp _
  have htfree : sTfree (popped fp) = sTfree fp := long_setShort_of_apart (by omega)
  obtain ⟨-, ⟨hpos, hbelow⟩ | ⟨hzero, hclean, hcount, hbelow⟩⟩ := h.top
  · have hle : sNfree (popped fp) ≤ NICFREE := by
      rw [sNfree_popped h.pos h.le]
      exact (sub_le_self _ (by decide)).trans h.le
    intro fp'
    have hfp : fp' = popped fp := if_neg (not_le.mpr hpos)
    rw [hfp]
    exact ⟨hpos, hle, hbelow, hkeeps, htfree⟩
  · intro fp'
    have hfp : fp' = loadFree (popped fp) (disk b) := by
      rw [← hc hclean]
      exact if_pos hzero.le
    have hbyte (i : ℕ) (hi : i < 202) : fp' (6 + i) = disk b (0 + i) := by
      rw [hfp]
      exact put_get_apply hi
    have hnfree : sNfree fp' = NICFREE := by
      rw [← hcount]
      exact short_congr (hbyte 0 (by decide)) (hbyte 1 (by decide))
    have hentries : entries fp' 6 = entries (disk b) 0 := entries_congr hbyte hnfree.le
    refine ⟨by rw [hnfree]; decide, hnfree.le, hentries ▸ hbelow, ?_, ?_⟩
    · rw [hfp]
      exact hkeeps.trans (keeps_loadFree _ _)
    · rw [← htfree, hfp]
      refine long_congr fun i hi ↦ put_apply_of_apart ?_
      rw [Buffer.get, List.length_map, List.length_range]
      omega

theorem Chain.of_subset {clean' : ℤ → Prop} {l : List ℤ} (h : Chain clean disk l stack)
    (hclean : ∀ c ∈ stack, clean c → clean' c) : Chain clean' disk l stack :=
  h.congr (fun _ _ _ ↦ rfl) hclean

/-- A free block is there: it is the top of the stack. -/
theorem alloc_of_top {v : Volume} (h : FreeList v.Clean v.disk v.fp (rest ++ [b])) (hpos : 0 < sIsize v.fp)
    (hninode : sNinode v.fp ≤ NICINOD) :
    ∃ fp', alloc v = ({ v with fp := fp', cache := Function.update v.cache b (some fun _ ↦ 0) }, some b) ∧
      KeepsInodes v.fp fp' ∧ sFmod fp' = 1 ∧
      FreeList (fun c ↦ Function.update v.cache b (some fun _ ↦ 0) c = none) v.disk fp' rest := by
  have hview : v.Clean b → v.view b = v.disk b := by
    intro hc
    rw [Volume.view, hc, Option.getD_none]
  obtain ⟨hpositive, hle, hchain, hkeeps, htotal⟩ := h.loaded hview
  have hpick : pick (getfs v.fp) = (popped v.fp, some b) := by
    rw [getfs_eq h.le hninode]
    exact pick_of_top h hpos
  rw [alloc, hpick]
  dsimp only
  generalize (if sNfree (popped v.fp) ≤ 0 then loadFree (popped v.fp) (v.view b) else popped v.fp) = fp at *
  have hcount : sTfree fp = rest.length + 1 := by
    rw [htotal, h.total, List.length_append, List.length_singleton]
    push_cast
    rfl
  have hrange : -2147483648 ≤ sTfree fp ∧ sTfree fp < 2147483648 := long_range fp 418
  rw [if_neg (not_le.mpr hpositive), if_pos (by omega)]
  have hsame (i : ℕ) (hi : i < 208) : setFmod (setTfree fp (sTfree fp - 1)) 1 i = fp i :=
    (setFmod_apply_of_ne _ _ (by omega)).trans (setLong_apply_of_apart (by omega))
  refine ⟨_, rfl, (hkeeps.trans (keeps_setTfree fp _)).trans (keeps_setFmod _ 1), sFmod_setFmod _ 1, ?_⟩
  have hnfree : sNfree (setFmod (setTfree fp (sTfree fp - 1)) 1) = sNfree fp := sNfree_congr fun i _ hi ↦ hsame i hi
  have hnodup := List.nodup_append'.mp h.nodup
  refine ⟨?_, ?_, ?_, ?_, hnodup.1, ?_⟩
  · rw [hnfree]
    exact hpositive.le
  · rw [hnfree]
    exact hle
  · rw [entries_congr_fp (fun i _ hi ↦ hsame i hi) hle]
    refine hchain.of_subset fun c hc hclean ↦ ?_
    rw [Function.update_of_ne]
    · exact hclean
    · rintro rfl
      exact hnodup.2.2 hc (List.mem_singleton_self _)
  · intro c hc
    rw [badblock_congr ((hkeeps.trans (keeps_setTfree fp _)).trans (keeps_setFmod _ 1))]
    exact h.range c (List.mem_append_left _ hc)
  · have htfree : sTfree (setFmod (setTfree fp (sTfree fp - 1)) 1) = sTfree (setTfree fp (sTfree fp - 1)) :=
      long_congr fun i hi ↦ setFmod_apply_of_ne _ _ (by omega)
    have hset : sTfree (setTfree fp (sTfree fp - 1)) = sTfree fp - 1 := long_setLong (by omega)
    rw [htfree, hset, hcount, add_sub_cancel_right]

/-- No block is free: the list stays empty. -/
theorem alloc_of_empty {v : Volume} (h : FreeList v.Clean v.disk v.fp []) (hninode : sNinode v.fp ≤ NICINOD) :
    ∃ fp', alloc v = ({ v with fp := fp' }, none) ∧ KeepsInodes v.fp fp' ∧ sFmod fp' = sFmod v.fp ∧
      FreeList v.Clean v.disk fp' [] := by
  obtain ⟨fp, hpick, hfp⟩ := pick_of_empty h
  rw [alloc, getfs_eq h.le hninode, hpick]
  have hkeeps : KeepsInodes v.fp fp ∧ sFmod fp = sFmod v.fp := by
    rcases hfp with rfl | rfl
    · exact ⟨fun _ _ ↦ rfl, rfl⟩
    · exact ⟨keeps_setNfree _ _, setShort_apply_of_apart (by omega)⟩
  have hkeeps' : KeepsInodes v.fp (nospace fp) :=
    (hkeeps.1.trans (keeps_setNfree fp 0)).trans (keeps_setTfree _ 0)
  have hnfree : sNfree (nospace fp) = 0 := by
    have hset : sNfree (setNfree fp 0) = 0 := short_setShort (by decide)
    rw [← hset]
    exact short_setLong_of_apart (by decide)
  refine ⟨nospace fp, rfl, hkeeps', ?_, hnfree.ge, ?_, ?_, by simp, List.nodup_nil, ?_⟩
  · rw [← hkeeps.2]
    exact (setLong_apply_of_apart (by decide)).trans (setShort_apply_of_apart (by decide))
  · rw [hnfree]
    decide
  · rw [entries, show short (nospace fp) 6 = 0 from hnfree]
    exact .nil
  · exact long_setLong (by decide)

end Alloc

section Free

/-- The super block with one more number behind its list, and one more block in the total. -/
def pushed (fp : Superblock) (bno : ℤ) : Superblock :=
  let listed := setNfree (setFree fp (sNfree fp).toNat bno) (sNfree fp + 1)
  setFmod (setTfree listed (sTfree listed + 1)) 1

theorem keeps_pushed (h : sNfree fp < NICFREE) (bno : ℤ) : KeepsInodes fp (pushed fp bno) := by
  rw [NICFREE] at h
  have hfree := keeps_setFree fp (k := (sNfree fp).toNat) (by omega) bno
  exact ((hfree.trans (keeps_setNfree _ _)).trans (keeps_setTfree _ _)).trans (keeps_setFmod _ _)

theorem sNfree_pushed (h : 0 ≤ sNfree fp) (hlt : sNfree fp < NICFREE) (bno : ℤ) :
    sNfree (pushed fp bno) = sNfree fp + 1 := by
  rw [NICFREE] at hlt
  have hset : sNfree (setNfree (setFree fp (sNfree fp).toNat bno) (sNfree fp + 1)) = sNfree fp + 1 :=
    short_setShort (by omega)
  rw [← hset]
  exact sNfree_congr fun i _ hi ↦ (setFmod_apply_of_ne _ _ (by omega)).trans (setLong_apply_of_apart (by omega))

theorem entries_pushed (h : 0 ≤ sNfree fp) (hlt : sNfree fp < NICFREE) {bno : ℤ}
    (hb : -2147483648 ≤ bno ∧ bno < 2147483648) : entries (pushed fp bno) 6 = entries fp 6 ++ [bno] := by
  have hle : sNfree (setNfree (setFree fp (sNfree fp).toNat bno) (sNfree fp + 1)) ≤ NICFREE := by
    rw [NICFREE] at *
    have hset : sNfree (setNfree (setFree fp (sNfree fp).toNat bno) (sNfree fp + 1)) = sNfree fp + 1 :=
      short_setShort (by omega)
    omega
  rw [← entries_push h hlt hb]
  exact entries_congr_fp
    (fun i _ hi ↦ (setFmod_apply_of_ne _ _ (by omega)).trans (setLong_apply_of_apart (by omega))) hle

theorem sTfree_pushed (hlt : sNfree fp < NICFREE) (bno : ℤ) (htotal : sTfree fp + 1 < 2147483648) :
    sTfree (pushed fp bno) = sTfree fp + 1 := by
  rw [NICFREE] at hlt
  have hsame : sTfree (setNfree (setFree fp (sNfree fp).toNat bno) (sNfree fp + 1)) = sTfree fp :=
    long_congr fun i hi ↦ (setShort_apply_of_apart (by omega)).trans (setLong_apply_of_apart (by omega))
  have hrange : -2147483648 ≤ sTfree fp ∧ sTfree fp < 2147483648 := long_range fp 418
  have hfmod : sTfree (pushed fp bno) =
      sTfree (setTfree (setNfree (setFree fp (sNfree fp).toNat bno) (sNfree fp + 1))
        (sTfree (setNfree (setFree fp (sNfree fp).toNat bno) (sNfree fp + 1)) + 1)) :=
    long_congr fun i hi ↦ setFmod_apply_of_ne _ _ (by omega)
  rw [hfmod, hsame]
  exact long_setLong (by omega)

theorem sFmod_pushed (fp : Superblock) (bno : ℤ) : sFmod (pushed fp bno) = 1 :=
  sFmod_setFmod _ 1

/-- The super block that holds at least one number, perhaps the zero. -/
def started (fp : Superblock) : Superblock := if sNfree fp ≤ 0 then setFree (setNfree fp 1) 0 0 else fp

/-- An empty list starts with the zero that ends every chain. -/
theorem FreeList.started (h : FreeList clean disk fp stack) :
    0 < sNfree (started fp) ∧ sNfree (started fp) ≤ NICFREE ∧ Chain clean disk (entries (started fp) 6) stack ∧
      KeepsInodes fp (started fp) ∧ sTfree (started fp) = sTfree fp := by
  generalize hstarted : Filsys.started fp = fp'
  by_cases hpos : sNfree fp ≤ 0
  · have hfp : fp' = setFree (setNfree fp 1) 0 0 := hstarted.symm.trans (if_pos hpos)
    have hlen : (entries fp 6).length = (sNfree fp).toNat := length_entries fp 6
    have hnil : entries fp 6 = [] := List.length_eq_zero_iff.mp (by omega)
    have hstack : stack = [] := Chain.of_nil (hnil ▸ h.chain)
    have hset : sNfree (setNfree fp 1) = 1 := short_setShort (by decide)
    have hkept : short (setLong (setNfree fp 1) 8 0) 6 = sNfree (setNfree fp 1) := short_setLong_of_apart (by decide)
    have hnfree : sNfree fp' = 1 := by
      rw [hfp]
      exact hkept.trans hset
    have hzero : long fp' 8 = 0 := by
      rw [hfp]
      exact long_setLong (by decide)
    have hentries : entries fp' 6 = [0] := by
      rw [entries, show short fp' 6 = 1 from hnfree]
      exact congrArg (fun a ↦ [a]) hzero
    refine ⟨by omega, by rw [hnfree]; decide, ?_, ?_, ?_⟩
    · rw [hentries, hstack]
      exact .last []
    · rw [hfp]
      exact (keeps_setNfree fp 1).trans (keeps_setFree _ (by decide) 0)
    · rw [hfp]
      exact (long_setLong_of_apart (by decide)).trans (long_setShort_of_apart (by decide))
  · have hfp : fp' = fp := hstarted.symm.trans (if_neg hpos)
    rw [hfp]
    exact ⟨not_le.mp hpos, h.le, h.chain, fun _ _ ↦ rfl, rfl⟩

theorem sNfree_storeFree (fp : Superblock) (c : Buffer) : short (storeFree fp c) 0 = sNfree fp :=
  short_congr (put_get_apply (i := 0) (by decide)) (put_get_apply (i := 1) (by decide))

theorem entries_storeFree (fp : Superblock) (c : Buffer) (hle : sNfree fp ≤ NICFREE) :
    entries (storeFree fp c) 0 = entries fp 6 :=
  (entries_congr (fun _ hi ↦ (put_get_apply hi).symm) hle).symm

theorem spill_of_full (v : Volume) (h : NICFREE ≤ sNfree fp) (bno : ℤ) :
    spill { v with fp } bno =
      { v with
        fp := setNfree fp 0
        disk := Function.update v.disk bno (storeFree fp (v.view bno))
        cache := Function.update v.cache bno none } :=
  if_pos h

theorem spill_of_room (v : Volume) (h : ¬ NICFREE ≤ sNfree fp) (bno : ℤ) : spill { v with fp } bno = { v with fp } :=
  if_neg h

/-- There is room for one more number after a full list has moved to the block. -/
theorem Chain.spill {v w : Volume} (h : Chain v.Clean v.disk (entries fp 6) stack) (hpos : 0 < sNfree fp)
    (hle : sNfree fp ≤ NICFREE) (hb : b ≠ 0) (hmem : b ∉ stack) (hw : w = Filsys.spill { v with fp } b) :
    0 ≤ sNfree w.fp ∧ sNfree w.fp < NICFREE ∧ Chain w.Clean w.disk (entries w.fp 6 ++ [b]) (stack ++ [b]) ∧
      KeepsInodes fp w.fp ∧ sTfree w.fp = sTfree fp := by
  by_cases hfull : NICFREE ≤ sNfree fp
  · rw [hw, spill_of_full v hfull]
    dsimp only [Volume.Clean]
    have hnfree : sNfree (setNfree fp 0) = 0 := short_setShort (by decide)
    have hnil : entries (setNfree fp 0) 6 = [] := by
      rw [entries, show short (setNfree fp 0) 6 = 0 from hnfree]
      rfl
    refine ⟨hnfree.ge, by rw [hnfree]; decide, ?_, keeps_setNfree fp 0, long_setShort_of_apart (by decide)⟩
    have hdisk : Function.update v.disk b (storeFree fp (v.view b)) b = storeFree fp (v.view b) :=
      Function.update_self ..
    have hne (c : ℤ) (hc : c ∈ stack) : c ≠ b := fun heq ↦ hmem (heq ▸ hc)
    rw [hnil, List.nil_append]
    refine .link hb (Function.update_self ..) ?_ ?_
    · rw [hdisk, sNfree_storeFree]
      exact le_antisymm hle hfull
    · rw [hdisk, entries_storeFree _ _ hle]
      refine h.congr (fun c hc _ ↦ Function.update_of_ne (hne c hc) ..) fun c hc hclean ↦ ?_
      exact (Function.update_of_ne (hne c hc) ..).trans hclean
  · rw [hw, spill_of_room v hfull]
    have hlen : (entries fp 6).length = (sNfree fp).toNat := length_entries fp 6
    have hne : entries fp 6 ≠ [] := List.ne_nil_of_length_pos (by omega)
    exact ⟨hpos.le, not_le.mp hfull, h.push hne b, fun _ _ ↦ rfl, rfl⟩

theorem spill_frame (v : Volume) (fp : Superblock) (bno : ℤ) :
    (spill { v with fp } bno).inode = v.inode ∧
      ∀ c, c ≠ bno → (spill { v with fp } bno).disk c = v.disk c ∧ (spill { v with fp } bno).cache c = v.cache c := by
  by_cases hfull : NICFREE ≤ sNfree fp
  · rw [spill_of_full v hfull]
    exact ⟨rfl, fun c hc ↦ ⟨Function.update_of_ne hc .., Function.update_of_ne hc ..⟩⟩
  · rw [spill_of_room v hfull]
    exact ⟨rfl, fun _ _ ↦ ⟨rfl, rfl⟩⟩

theorem free_of_good {v : Volume} (h : getfs v.fp = v.fp) (hgood : ¬ badblock (setFmod v.fp 1) b) :
    free v b =
      { spill { v with fp := started (setFmod v.fp 1) } b with
        fp := pushed (spill { v with fp := started (setFmod v.fp 1) } b).fp b } := by
  rw [free, h]
  exact if_neg hgood

/-- What `free` has before it puts the number behind the list. -/
theorem exists_spilled {v : Volume} (h : FreeList v.Clean v.disk v.fp stack) (hpos : 0 < sIsize v.fp)
    (hninode : sNinode v.fp ≤ NICINOD) (hrange : ¬ badblock v.fp b) (hmem : b ∉ stack) :
    ∃ w : Volume, free v b = { w with fp := pushed w.fp b } ∧
      (0 ≤ sNfree w.fp ∧ sNfree w.fp < NICFREE ∧ Chain w.Clean w.disk (entries w.fp 6 ++ [b]) (stack ++ [b]) ∧
        KeepsInodes v.fp w.fp ∧ sTfree w.fp = stack.length) ∧
      w.inode = v.inode ∧ ∀ c, c ≠ b → w.disk c = v.disk c ∧ w.cache c = v.cache c := by
  have hmarked : FreeList v.Clean v.disk (setFmod v.fp 1) stack :=
    h.of_keeps fun i hi ↦ setFmod_apply_of_ne _ _ (by omega)
  have hkeeps := keeps_setFmod v.fp 1
  have hbad : ¬ badblock (setFmod v.fp 1) b := (badblock_congr hkeeps b).not.mpr hrange
  have hne : b ≠ 0 := by
    rintro rfl
    exact hrange (.inl hpos)
  obtain ⟨hnfree, hle, hchain, hkeeps', htotal⟩ := hmarked.started
  obtain ⟨hnonneg, hlt, hchain', hkeeps'', htotal'⟩ := hchain.spill hnfree hle hne hmem rfl
  refine ⟨_, free_of_good (getfs_eq h.le hninode) hbad, ⟨hnonneg, hlt, hchain', ?_, ?_⟩, spill_frame v _ b⟩
  · exact (hkeeps.trans hkeeps').trans hkeeps''
  · exact (htotal'.trans htotal).trans hmarked.total

/-- A block that is in range and not free is the new top of the stack. -/
theorem free_push {v : Volume} (h : FreeList v.Clean v.disk v.fp stack) (hpos : 0 < sIsize v.fp)
    (hninode : sNinode v.fp ≤ NICINOD) (hrange : ¬ badblock v.fp b) (hmem : b ∉ stack) :
    FreeList (free v b).Clean (free v b).disk (free v b).fp (stack ++ [b]) ∧ KeepsInodes v.fp (free v b).fp ∧
      sFmod (free v b).fp = 1 ∧ (free v b).inode = v.inode ∧
      ∀ c, c ≠ b → (free v b).disk c = v.disk c ∧ (free v b).cache c = v.cache c := by
  obtain ⟨w, hfree, ⟨hnonneg, hlt, hchain, hkeeps, hcount⟩, hframe⟩ := exists_spilled h hpos hninode hrange hmem
  rw [hfree]
  have hall : KeepsInodes v.fp (pushed w.fp b) := hkeeps.trans (keeps_pushed hlt b)
  have hisize : -32768 ≤ sIsize v.fp ∧ sIsize v.fp < 32768 := short_range v.fp 0
  have hfsize : -2147483648 ≤ sFsize v.fp ∧ sFsize v.fp < 2147483648 := long_range v.fp 2
  obtain ⟨hlow, hhigh⟩ := not_or.mp hrange
  have hnew : ∀ c ∈ stack ++ [b], ¬ badblock v.fp c := by
    intro c hc
    rcases List.mem_append.mp hc with hc | hc
    · exact h.range c hc
    · rw [List.mem_singleton.mp hc]
      exact hrange
  have hnodup : (stack ++ [b]).Nodup := List.nodup_append'.mpr ⟨h.nodup, List.nodup_singleton b, by simpa using hmem⟩
  have hlen : ((stack ++ [b]).length : ℤ) ≤ sFsize v.fp - sIsize v.fp := by
    refine length_le_of_range hnodup (fun c hc ↦ ?_) (by omega)
    obtain ⟨hc, hc'⟩ := not_or.mp (hnew c hc)
    exact ⟨not_lt.mp hc, not_le.mp hc'⟩
  rw [List.length_append, List.length_singleton] at hlen
  have hfits : sTfree w.fp + 1 < 2147483648 := by
    rw [hcount]
    omega
  refine ⟨⟨?_, ?_, ?_, ?_, hnodup, ?_⟩, hall, sFmod_pushed w.fp b, hframe⟩
  · rw [sNfree_pushed hnonneg hlt]
    omega
  · rw [sNfree_pushed hnonneg hlt]
    omega
  · rw [entries_pushed hnonneg hlt (by omega)]
    exact hchain
  · intro c hc
    rw [badblock_congr hall]
    exact hnew c hc
  · rw [sTfree_pushed hlt b hfits, hcount, List.length_append, List.length_singleton]
    push_cast
    rfl

end Free

end S8000.Filsys
