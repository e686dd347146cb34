import S8000.Filsys.StoreSteps

/-! The files of a new file system. -/

namespace S8000.Filsys

open Foundation Foundation.Bytes Foundation.Buffer

section FirstInodes

variable {uid gid time root : ℤ} {i : ℕ}

theorem firstInodes_apply_bad (hlow : 2 ≤ i) (hhigh : i < 52) : firstInodes uid gid time root i = 0 := by
  rw [firstInodes_apply_of_small hhigh]
  exact setShort_apply_of_apart (.inr hlow)

/-- The first inode, before that of the root directory is written beside it. -/
def firstBad (time : ℤ) : Buffer := setLong (setLong (setLong (setShort cleared 0 IFREG) 52 time) 56 time) 60 time

def firstOwner (uid gid time : ℤ) : Buffer := setLong (setShort (setShort (setShort (firstBad time) 66 2) 68 uid) 70 gid) 72 32

theorem firstInodes_apply_owner (hlow : 66 ≤ i) (hhigh : i < 76) :
    firstInodes uid gid time root i = firstOwner uid gid time i := by
  unfold firstInodes
  refine (setShort_apply_of_apart (by omega)).trans ((setLong_apply_of_apart (by omega)).trans ?_)
  refine (setLong_apply_of_apart (by omega)).trans ((setLong_apply_of_apart (by omega)).trans ?_)
  exact put_apply_of_apart (.inl (by omega))

theorem firstInodes_apply_addr (hlow : 76 ≤ i) (hhigh : i < 116) :
    firstInodes uid gid time root i = setTriple (firstOwner uid gid time) 76 root i := by
  unfold firstInodes
  refine (setShort_apply_of_apart (by omega)).trans ((setLong_apply_of_apart (by omega)).trans ?_)
  exact (setLong_apply_of_apart (by omega)).trans (setLong_apply_of_apart (by omega))

theorem firstOwner_apply_of_large (h : 76 ≤ i) : firstOwner uid gid time i = 0 := by
  unfold firstOwner firstBad
  refine (setLong_apply_of_apart (by omega)).trans ((setShort_apply_of_apart (by omega)).trans ?_)
  refine (setShort_apply_of_apart (by omega)).trans ((setShort_apply_of_apart (by omega)).trans ?_)
  refine (setLong_apply_of_apart (by omega)).trans ((setLong_apply_of_apart (by omega)).trans ?_)
  exact (setLong_apply_of_apart (by omega)).trans (setShort_apply_of_apart (by omega))

theorem long_of_zero {b : Buffer} {off : ℕ} (h : ∀ k < 4, b (off + k) = 0) : long b off = 0 := by
  have hfirst : ushort b off = 0 := ushort_of_zero (h 0 (by decide)) (h 1 (by decide))
  have hsecond : ushort b (off + 2) = 0 := ushort_of_zero (h 2 (by decide)) (h 3 (by decide))
  unfold long ulong
  rw [hfirst, hsecond]
  rfl

theorem triple_of_zero {b : Buffer} {off : ℕ} (h : ∀ k < 3, b (off + k) = 0) : triple b off = 0 := by
  have hfirst : b off = 0 := h 0 (by decide)
  unfold triple
  rw [hfirst, h 1 (by decide), h 2 (by decide)]
  rfl

/-- The bad block file. -/
def badInode : Inode := ⟨⟨0, fun _ ↦ 0⟩, 1, 32768, 0, 0, 0, false⟩

def rootInode (uid gid root : ℤ) : Inode := ⟨⟨32, fun k ↦ if k = 0 then root else 0⟩, ROOTINO, 16895, 2, uid, gid, false⟩

theorem iexpand_bad : iexpand 1 (firstInodes uid gid time root) 0 = badInode := by
  have hzero (k : ℕ) (hlow : 2 ≤ k) (hhigh : k < 52) : firstInodes uid gid time root (0 + k) = 0 := by
    rw [Nat.zero_add]
    exact firstInodes_apply_bad hlow hhigh
  have hshort (k : ℕ) (hlow : 2 ≤ k) (hhigh : k < 51) : short (firstInodes uid gid time root) (0 + k) = 0 :=
    short_of_zero (hzero k hlow (by omega)) (hzero (k + 1) (by omega) (by omega))
  have hsize : long (firstInodes uid gid time root) (0 + 8) = 0 := long_of_zero fun k hk ↦ by
    rw [Nat.add_assoc]
    exact hzero (8 + k) (by omega) (by omega)
  have haddr : (fun k ↦ if k < NADDR then (triple (firstInodes uid gid time root) (0 + 12 + 3 * k) : ℤ) else 0) = fun _ ↦ 0 := by
    funext k
    split
    · rename_i hk
      rw [NADDR] at hk
      have htriple : triple (firstInodes uid gid time root) (0 + 12 + 3 * k) = 0 := by
        refine triple_of_zero fun j hj ↦ ?_
        rw [Nat.zero_add]
        exact firstInodes_apply_bad (by omega) (by omega)
      rw [htriple]
      rfl
    · rfl
  rw [iexpand, haddr, ushort_firstInodes_bad, hshort 2 (by decide) (by decide), hshort 4 (by decide) (by decide),
    hshort 6 (by decide) (by decide), hsize]
  rfl

theorem iexpand_root (huid : -32768 ≤ uid ∧ uid < 32768) (hgid : -32768 ≤ gid ∧ gid < 32768)
    (hroot : 0 ≤ root ∧ root < 16777216) :
    iexpand ROOTINO (firstInodes uid gid time root) 64 = rootInode uid gid root := by
  have howner (k : ℕ) (hlow : 66 ≤ k) (hhigh : k < 75) :
      short (firstInodes uid gid time root) k = short (firstOwner uid gid time) k :=
    short_congr (firstInodes_apply_owner hlow (by omega)) (firstInodes_apply_owner (by omega) (by omega))
  have hnlink : short (firstInodes uid gid time root) (64 + 2) = 2 := by
    rw [howner 66 (by decide) (by decide), firstOwner, short_setLong_of_apart (.inl (by decide)),
      short_setShort_of_apart (.inl (by decide)), short_setShort_of_apart (.inl (by decide))]
    exact short_setShort (by decide)
  have huid' : short (firstInodes uid gid time root) (64 + 4) = uid := by
    rw [howner 68 (by decide) (by decide), firstOwner, short_setLong_of_apart (.inl (by decide)),
      short_setShort_of_apart (.inl (by decide))]
    exact short_setShort huid
  have hgid' : short (firstInodes uid gid time root) (64 + 6) = gid := by
    rw [howner 70 (by decide) (by decide), firstOwner, short_setLong_of_apart (.inl (by decide))]
    exact short_setShort hgid
  have hsize : long (firstInodes uid gid time root) (64 + 8) = 32 := by
    have hsame : long (firstInodes uid gid time root) 72 = long (firstOwner uid gid time) 72 :=
      long_congr fun k hk ↦ firstInodes_apply_owner (by omega) (by omega)
    exact hsame.trans (long_setLong (by decide))
  have haddr : (fun k ↦ if k < NADDR then (triple (firstInodes uid gid time root) (64 + 12 + 3 * k) : ℤ) else 0) =
      fun k ↦ if k = 0 then root else 0 := by
    funext k
    by_cases hk : k < NADDR
    · rw [if_pos hk]
      rw [NADDR] at hk
      have hbyte (j : ℕ) (hj : j < 3) : firstInodes uid gid time root (64 + 12 + 3 * k + j) =
          setTriple (firstOwner uid gid time) 76 root (64 + 12 + 3 * k + j) :=
        firstInodes_apply_addr (by omega) (by omega)
      rw [triple_congr hbyte]
      by_cases hzero : k = 0
      · rw [if_pos hzero, hzero]
        exact triple_setTriple hroot
      · have hnone : triple (setTriple (firstOwner uid gid time) 76 root) (64 + 12 + 3 * k) = 0 := by
          refine triple_of_zero fun j _ ↦ ?_
          exact (setTriple_apply_of_apart (by omega)).trans (firstOwner_apply_of_large (by omega))
        rw [if_neg hzero, hnone]
        rfl
    · have hne : k ≠ 0 := by
        rw [NADDR] at hk
        omega
      rw [if_neg hk, if_neg hne]
  rw [iexpand, haddr, ushort_firstInodes_root, hnlink, huid', hgid', hsize]
  rfl

end FirstInodes

section Start

variable {fssize n : ℕ} {uid gid time root : ℤ} {nobody : List ℤ} {v : Volume} {view : ℤ → Buffer} {i bn : ℕ}

theorem hasBlocks_root : (rootInode uid gid root).HasBlocks := by
  have hkind : ((16895 &&& IFMT : ℕ) : ℤ) = IFDIR := by decide
  exact .inr hkind

theorem fileTree_root (hroot : root ≠ 0) (view : ℤ → Buffer) :
    fileTree view (rootInode uid gid root).toFile = [root] := by
  have hsplit : List.range NADDR = 0 :: List.range' 1 12 := by decide
  have hrest : ((List.range' 1 12).flatMap fun k ↦
      tree view (k - (NADDR - 4)) ((rootInode uid gid root).toFile.iAddr k)) = [] := by
    refine List.flatMap_eq_nil_iff.mpr fun k hk ↦ ?_
    have hne : k ≠ 0 := Nat.ne_of_gt (List.mem_range'_1.mp hk).1
    have hzero : (rootInode uid gid root).toFile.iAddr k = 0 := if_neg hne
    rw [hzero]
    exact IndexTree.nodes_null _
  have hfirst : tree view (0 - (NADDR - 4)) ((rootInode uid gid root).toFile.iAddr 0) = [root] := if_neg hroot
  rw [fileTree, hsplit, List.flatMap_cons, hrest, hfirst, List.append_nil]

theorem blockContents_root (hroot : root ≠ 0) (hview : view root = rootDirectory) :
    blockContents view (rootInode uid gid root).toFile bn = if bn = 0 then rootDirectory else cleared := by
  by_cases hbn : bn = 0
  · have hslot : slot bn = some (0, 0, 0) := by rw [hbn]; rfl
    have hleaf : leaf view 0 root 0 = root := rfl
    rw [if_pos hbn, blockContents_eq hslot]
    change leafContents view 0 root 0 = rootDirectory
    rw [leafContents, hleaf, if_neg hroot, hview]
  · rw [if_neg hbn]
    cases hslot : slot bn with
    | none => exact blockContents_of_large hslot
    | some t =>
      obtain ⟨k, sh, rest⟩ := t
      obtain ⟨-, hsh, hrest, hback⟩ := slot_spec hslot
      have hne : k ≠ 0 := by
        rintro rfl
        have hzero : sh = 0 := hsh
        rw [hzero, pow_zero, Nat.lt_one_iff] at hrest
        exact hbn (hback 0 (by rw [hzero, hrest]; rfl)).symm
      have hnull : (rootInode uid gid root).toFile.iAddr k = 0 := if_neg hne
      rw [blockContents_eq hslot, hnull]
      exact if_pos (IndexTree.find_null sh rest)

theorem fileByte_root (hroot : root ≠ 0) (hview : view root = rootDirectory) :
    fileByte view (rootInode uid gid root).toFile = rootDirectory := by
  funext o
  have hsplit := Nat.div_add_mod o BSIZE
  rw [fileByte, blockContents_root hroot hview]
  rw [BSIZE] at *
  by_cases ho : o / 512 = 0
  · have hsame : o % 512 = o := by omega
    rw [if_pos ho, hsame]
  · have hzero : rootDirectory o = 0 := by
      have hlarge : 512 ≤ o := by omega
      refine (put_apply_of_apart (.inr (le_trans (by decide) hlarge))).trans ?_
      exact put_apply_of_apart (.inr (le_trans (by decide) hlarge))
    rw [if_neg ho, hzero]
    rfl

/-- The bad block file and the root directory, with its two entries. -/
def newFiles (uid gid : ℤ) (i : ℕ) : Option Object :=
  if i = 1 then some ⟨32768, 0, 0, 0, 0, fun _ ↦ 0, 0⟩
  else if i = ROOTINO then some ⟨16895, 2, uid, gid, 32, rootDirectory, 0⟩
  else none

theorem Unmounted.dinode (h : Unmounted n (firstInodes uid gid time root) root v) (hn : 1 ≤ n)
    (huid : -32768 ≤ uid ∧ uid < 32768) (hgid : -32768 ≤ gid ∧ gid < 32768) (hroot : 0 ≤ root ∧ root < 16777216) :
    v.dinode 1 = badInode ∧ v.dinode ROOTINO = rootInode uid gid root := by
  have hfirst : v.view 2 = firstInodes uid gid time root := (h.table 2 le_rfl (by omega)).trans (if_pos rfl)
  refine ⟨?_, ?_⟩
  · change iexpand 1 (v.view 2) 0 = badInode
    rw [hfirst]
    exact iexpand_bad
  · change iexpand ROOTINO (v.view 2) 64 = rootInode uid gid root
    rw [hfirst]
    exact iexpand_root huid hgid hroot

theorem Unmounted.dinode_zero (h : Unmounted n (firstInodes uid gid time root) root v) (hlow : 3 ≤ i) (hhigh : i ≤ 8 * n) :
    (v.dinode i).iMode = 0 ∧ (v.dinode i).iSize = 0 := by
  have hview := h.table (itod i) (by rw [itod]; omega) (by rw [itod]; omega)
  have hzero (k : ℕ) : v.view (itod i) (64 * itoo i + k) = 0 := by
    rw [hview]
    split
    · rename_i hblock
      refine firstInodes_apply_of_large ?_
      rw [itod] at hblock
      rw [itoo]
      omega
    · rfl
  exact ⟨ushort_of_zero (hzero 0) (hzero 1), long_of_zero fun k _ ↦ by rw [Nat.add_assoc]; exact hzero (8 + k)⟩

/-- The files of a new file system. -/
theorem Unmounted.held (h : Unmounted n (firstInodes uid gid time root) root v) (hn : 1 ≤ n) (hle : n < 8192)
    (hmax : fssize < 16777216) (hsound : Sound (n + 2) fssize v (root :: nobody)) (hapart : root ∉ nobody)
    (huid : -32768 ≤ uid ∧ uid < 32768) (hgid : -32768 ≤ gid ∧ gid < 32768) :
    Held (n + 2) fssize nobody ⟨v, [root]⟩ ∧ v.object = newFiles uid gid := by
  have hrange := hsound.owned_range root List.mem_cons_self
  have hne : root ≠ 0 := by omega
  obtain ⟨hbad, hroot⟩ := h.dinode hn huid hgid ⟨by omega, by omega⟩
  have hall : v.ninodes = 8 * n := by
    rw [Volume.ninodes, hsound.accounts.isize_eq, NIPB, SUPERB]
    omega
  have hinodeOf (i : ℕ) : v.inodeOf i = v.dinode i := by
    refine inodeOf_of_not_mem fun p hp ↦ ?_
    rw [h.inode] at hp
    exact absurd hp List.not_mem_nil
  have hother (i : ℕ) (hi : v.Has i) (hbad : i ≠ 1) (hroot : i ≠ ROOTINO) : (v.dinode i).iMode = 0 ∧ (v.dinode i).iSize = 0 := by
    have hle := hi.2
    rw [hall] at hle
    refine h.dinode_zero ?_ hle
    have hpos := hi.1
    rw [ROOTINO] at hroot
    omega
  have hkind : (v.dinode ROOTINO).HasBlocks := by
    rw [hroot]
    exact hasBlocks_root
  have hblocks (i : ℕ) (hi : v.Has i) : (v.inodeOf i).blocks v.view = if i = ROOTINO then [root] else [] := by
    rw [hinodeOf]
    by_cases hi2 : i = ROOTINO
    · rw [if_pos hi2, hi2, hroot]
      exact (if_pos hasBlocks_root).trans (fileTree_root hne v.view)
    · rw [if_neg hi2]
      by_cases hi1 : i = 1
      · rw [hi1, hbad]
        exact (if_pos (.inl rfl)).trans (fileTree_empty v.view 0)
      · exact if_neg (not_hasBlocks (hother i hi hi1 hi2).1)
  have hhas : v.Has 1 ∧ v.Has ROOTINO := by
    rw [Volume.Has, Volume.Has, hall, ROOTINO]
    omega
  have hempty (i : ℕ) (hi : v.Has i) (hnone : ¬ (v.inodeOf i).HasBlocks) : (v.inodeOf i).iSize = 0 := by
    rw [hinodeOf] at hnone ⊢
    by_cases hi2 : i = ROOTINO
    · exact absurd (hi2 ▸ hkind) hnone
    · by_cases hi1 : i = 1
      · rw [hi1, hbad]
        rfl
      · exact (hother i hi hi1 hi2).2
  refine ⟨⟨⟨hsound, fun b hb hmem ↦ hapart (List.mem_singleton.mp hmem ▸ hb)⟩, ⟨by omega, by omega⟩, ?_, fun i hi ↦ ?_,
    fun i j hi hj hij ↦ ?_, fun b ↦ ?_, hempty, hhas.2, ?_⟩, funext fun i ↦ ?_⟩
  · have hnone (p : Inode) : p ∉ v.inode := h.inode ▸ List.not_mem_nil
    refine ⟨?_, fun p hp ↦ absurd hp (hnone p), fun p hp ↦ absurd hp (hnone p), fun p hp ↦ absurd hp (hnone p)⟩
    rw [h.inode]
    exact List.nodup_nil
  · rw [hblocks i hi]
    split
    · exact List.nodup_singleton root
    · exact List.nodup_nil
  · rw [hblocks i hi, hblocks j hj]
    by_cases hi2 : i = ROOTINO
    · rw [if_neg fun hj2 : j = ROOTINO ↦ hij (hi2.trans hj2.symm)]
      exact List.disjoint_nil_right _
    · rw [if_neg hi2]
      exact List.disjoint_nil_left _
  · rw [List.mem_singleton]
    refine ⟨fun hb ↦ ⟨ROOTINO, hhas.2, ?_⟩, fun hex ↦ ?_⟩
    · rw [hblocks ROOTINO hhas.2, if_pos rfl]
      exact List.mem_singleton.mpr hb
    · obtain ⟨i, hi, hb⟩ := hex
      rw [hblocks i hi] at hb
      split at hb
      · exact List.mem_singleton.mp hb
      · exact absurd hb List.not_mem_nil
  · rw [hinodeOf, hroot]
    exact show 16895 ≠ 0 by decide
  · unfold newFiles Volume.object
    rw [hinodeOf]
    by_cases hi1 : i = 1
    · rw [hi1, if_pos rfl, hbad, if_pos ⟨hhas.1, by decide⟩]
      have hbytes : fileByte v.view badInode.toFile = fun _ ↦ 0 := fileByte_empty v.view 0
      refine congrArg some ?_
      rw [Inode.object, hbytes]
      rfl
    · rw [if_neg hi1]
      by_cases hi2 : i = ROOTINO
      · rw [hi2, if_pos rfl, hroot, if_pos ⟨hhas.2, show 16895 ≠ 0 by decide⟩]
        refine congrArg some ?_
        rw [Inode.object, fileByte_root hne h.directory, if_pos hasBlocks_root, if_pos hasBlocks_root]
        rfl
      · rw [if_neg hi2]
        exact if_neg fun hand ↦ hand.2 (hother i hand.1 hi1 hi2).1

end Start

end S8000.Filsys
