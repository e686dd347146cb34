import S8000.Filsys.AllocFree
import S8000.Filsys.Inodes

namespace S8000.Filsys

open Foundation Foundation.Bytes Foundation.Buffer

section Code

/-- `iupdat` puts an inode into the buffer of its block. -/
def Volume.iupdat (v : Volume) (ip : Inode) : Volume :=
  { v with
    cache := Function.update v.cache (itod ip.iNumber)
      (some (ip.store (v.view (itod ip.iNumber)) (64 * itoo ip.iNumber))) }

/-- `iput` for the last reference to an inode without links, after its blocks are free. -/
def iputFree (v : Volume) (ip : Inode) : Volume :=
  let freed := (ifree v ip.iNumber).iupdat { ip with iMode := 0 }
  { freed with inode := freed.inode.filter fun p ↦ p.iNumber ≠ ip.iNumber }

/-- The super block goes to its buffer and from there to the disk. -/
def writeSuper (v : Volume) (time : ℤ) : Volume :=
  if sFmod v.fp = 0 ∨ sIlock v.fp ≠ 0 ∨ sFlock v.fp ≠ 0 ∨ sRonly v.fp ≠ 0 then v
  else
    let fp := setTime (setFmod v.fp 0) time
    { v with
      fp
      disk := Function.update v.disk SUPERB (put (v.view SUPERB) 0 (fp.get 0 512))
      cache := Function.update v.cache SUPERB none }

def writeInodes (v : Volume) : Volume :=
  let written := (v.inode.filter fun ip ↦ ip.due).foldl (fun w ip ↦ w.iupdat ip) v
  { written with inode := v.inode.map fun ip ↦ { ip with due := false } }

/-- All buffers go to the disk. -/
def bflush (v : Volume) : Volume := { v with disk := v.view, cache := fun _ ↦ none }

def update (v : Volume) (time : ℤ) : Volume := bflush (writeInodes (writeSuper v time))

end Code

section Modes

variable {v : Volume} {ino i : ℕ}

theorem itod_mem (h : 1 ≤ i) (hle : i ≤ v.ninodes) : SUPERB < itod i ∧ itod i < sIsize v.fp := by
  rw [Volume.ninodes, NIPB, SUPERB] at hle
  rw [itod, SUPERB]
  omega

theorem view_iupdat_of_ne {b : ℤ} {ip : Inode} (h : b ≠ itod ip.iNumber) : (v.iupdat ip).view b = v.view b :=
  congrArg (fun c : Option Buffer ↦ c.getD (v.disk b)) (Function.update_of_ne h ..)

theorem view_iupdat_self (v : Volume) (ip : Inode) :
    (v.iupdat ip).view (itod ip.iNumber) = ip.store (v.view (itod ip.iNumber)) (64 * itoo ip.iNumber) :=
  congrArg (fun c : Option Buffer ↦ c.getD (v.disk (itod ip.iNumber))) (Function.update_self (itod ip.iNumber) _ v.cache)

theorem dinode_iupdat_self {ip : Inode} (h : ip.Fits) (v : Volume) :
    (v.iupdat ip).dinode ip.iNumber = { ip with due := false } := by
  rw [Volume.dinode, view_iupdat_self]
  exact iexpand_store h _ _

theorem dinode_iupdat_of_ne {ip : Inode} (h : i ≠ ip.iNumber) : (v.iupdat ip).dinode i = v.dinode i := by
  rw [Volume.dinode, Volume.dinode]
  by_cases hblock : itod i = itod ip.iNumber
  · have hplace : itoo i ≠ itoo ip.iNumber := by
      rw [itod, itod] at hblock
      rw [itoo, itoo]
      omega
    rw [hblock, view_iupdat_self]
    exact iexpand_store_of_apart i (by omega)
  · rw [view_iupdat_of_ne hblock]

theorem diMode_iupdat_self (v : Volume) (ip : Inode) : (v.iupdat ip).diMode ip.iNumber = ip.iMode % 65536 := by
  rw [Volume.diMode, view_iupdat_self]
  exact ushort_store ip _ _

theorem diMode_iupdat_of_ne {ip : Inode} (h : i ≠ ip.iNumber) : (v.iupdat ip).diMode i = v.diMode i :=
  congrArg Inode.iMode (dinode_iupdat_of_ne h)

end Modes

section Accounts

/-- The accounts of a super block: every block of the data is either owned or once on the free list, and the totals
count what is free. -/
structure Accounts (clean : ℤ → Prop) (disk : ℤ → Buffer) (fp : Superblock) (isize fsize : ℤ) (owned : List ℤ)
    (spares : Finset ℕ) : Prop where
  isize_eq : sIsize fp = isize
  fsize_eq : sFsize fp = fsize
  blocks : ∃ stack, FreeList clean disk fp stack ∧ ∀ b, isize ≤ b → b < fsize → (b ∈ owned ↔ b ∉ stack)
  inodes : Names fp spares

variable {clean clean' : ℤ → Prop} {disk disk' : ℤ → Buffer} {fp fp' : Superblock} {isize fsize : ℤ}
  {owned : List ℤ} {spares : Finset ℕ}

theorem FreeList.congr {stack : List ℤ} (h : FreeList clean disk fp stack)
    (hdisk : ∀ b ∈ stack, clean b → disk' b = disk b) (hclean : ∀ b ∈ stack, clean b → clean' b) :
    FreeList clean' disk' fp stack :=
  ⟨h.nonneg, h.le, h.chain.congr hdisk hclean, h.range, h.nodup, h.total⟩

/-- Only the clean blocks that nobody owns matter. -/
theorem Accounts.congr (h : Accounts clean disk fp isize fsize owned spares)
    (hsame : ∀ b, isize ≤ b → b < fsize → b ∉ owned → clean b → disk' b = disk b ∧ clean' b) :
    Accounts clean' disk' fp isize fsize owned spares := by
  obtain ⟨stack, hlist, hpartition⟩ := h.blocks
  have hstack (b : ℤ) (hb : b ∈ stack) (hc : clean b) : disk' b = disk b ∧ clean' b := by
    have hrange := not_or.mp (hlist.range b hb)
    have hlow : isize ≤ b := h.isize_eq ▸ not_lt.mp hrange.1
    have hhigh : b < fsize := h.fsize_eq ▸ not_le.mp hrange.2
    exact hsame b hlow hhigh (fun howned ↦ (hpartition b hlow hhigh).mp howned hb) hc
  refine ⟨h.isize_eq, h.fsize_eq, ⟨stack, ?_, hpartition⟩, h.inodes⟩
  exact hlist.congr (fun b hb hc ↦ (hstack b hb hc).1) fun b hb hc ↦ (hstack b hb hc).2

/-- The time and the mark of a change are no matter. -/
theorem Accounts.of_bytes (h : Accounts clean disk fp isize fsize owned spares)
    (hsame : ∀ i, i < 410 ∨ 418 ≤ i ∧ i < 424 → fp' i = fp i) : Accounts clean disk fp' isize fsize owned spares := by
  obtain ⟨stack, hlist, hpartition⟩ := h.blocks
  have hisize : sIsize fp' = sIsize fp := short_congr (hsame 0 (by decide)) (hsame 1 (by decide))
  have hfsize : sFsize fp' = sFsize fp := long_congr fun i hi ↦ hsame (2 + i) (by omega)
  have htinode : sTinode fp' = sTinode fp := ushort_congr (hsame 422 (by decide)) (hsame 423 (by decide))
  have hnfree : sNfree fp' = sNfree fp := short_congr (hsame 6 (by decide)) (hsame 7 (by decide))
  have htfree : sTfree fp' = sTfree fp := long_congr fun i hi ↦ hsame (418 + i) (by omega)
  have hninode : sNinode fp' = sNinode fp := short_congr (hsame 208 (by decide)) (hsame 209 (by decide))
  have hinodes : Filsys.inodes fp' = Filsys.inodes fp := inodes_congr (fun i _ hi ↦ hsame i (.inl hi)) h.inodes.le
  refine ⟨hisize.trans h.isize_eq, hfsize.trans h.fsize_eq, ⟨stack, ?_, hpartition⟩, hninode ▸ h.inodes.nonneg,
    hninode ▸ h.inodes.le, hinodes ▸ h.inodes.nodup, hinodes ▸ h.inodes.spare, htinode.trans h.inodes.total⟩
  refine ⟨hlist.nonneg.trans hnfree.ge, hnfree.le.trans hlist.le, ?_, ?_, hlist.nodup, htfree.trans hlist.total⟩
  · rw [entries_congr_fp (fun i _ hi ↦ hsame i (.inl (by omega))) hlist.le]
    exact hlist.chain
  · intro b hb
    rw [badblock, hisize, hfsize]
    exact hlist.range b hb

/-- The mounted file system keeps its accounts in core, and those on the disk are right unless the super block is
marked. -/
structure Sound (isize fsize : ℤ) (v : Volume) (owned : List ℤ) : Prop where
  large : SUPERB + 1 < isize
  unlocked : sFlock v.fp = 0 ∧ sIlock v.fp = 0 ∧ sRonly v.fp = 0
  accounts : Accounts v.Clean v.disk v.fp isize fsize owned v.spares
  owned_range : ∀ b ∈ owned, isize ≤ b ∧ b < fsize
  list : InodeList v
  table : ∀ ip ∈ v.inode, 1 ≤ ip.iNumber ∧ ip.iNumber ≤ v.ninodes
  super : v.Clean SUPERB
  synced : sFmod v.fp = 0 → Accounts v.Clean v.disk (v.disk SUPERB) isize fsize owned v.spares

variable {v w : Volume} {b : ℤ}

theorem KeepsInodes.sIsize (h : KeepsInodes fp fp') : sIsize fp' = sIsize fp :=
  short_congr (h 0 (by decide)) (h 1 (by decide))

theorem KeepsInodes.sFsize (h : KeepsInodes fp fp') : sFsize fp' = sFsize fp :=
  long_congr fun i hi ↦ h (2 + i) (.inl (by omega))

theorem KeepsInodes.sTinode (h : KeepsInodes fp fp') : sTinode fp' = sTinode fp :=
  ushort_congr (h 422 (by decide)) (h 423 (by decide))

theorem KeepsInodes.inodes (h : KeepsInodes fp fp') (hle : sNinode fp ≤ NICINOD) : inodes fp' = inodes fp :=
  inodes_congr (fun i hi hlt ↦ h i (by omega)) hle

/-- A change of the block list leaves the inodes as they are. -/
theorem InodeList.of_keeps (h : InodeList v) (hkeeps : KeepsInodes v.fp w.fp) (hspare : ∀ i, w.Spare i ↔ v.Spare i) :
    InodeList w := by
  have hninode : sNinode w.fp = sNinode v.fp :=
    short_congr (hkeeps 208 (by decide)) (hkeeps 209 (by decide))
  have hinodes := hkeeps.inodes h.le
  refine ⟨h.nonneg.trans hninode.ge, hninode.le.trans h.le, hinodes ▸ h.nodup, ?_, ?_, ?_⟩
  · intro ino hino hne
    exact (hspare ino).mpr (h.spare ino (hinodes ▸ hino) hne)
  · rw [spares_congr hspare, hkeeps.sTinode]
    exact h.total
  · have hbound := h.bound
    rw [Volume.ninodes] at hbound ⊢
    rw [hkeeps.sIsize]
    exact hbound

theorem diMode_congr {ino : ℕ} (h : w.view (itod ino) = v.view (itod ino)) : w.diMode ino = v.diMode ino := by
  rw [Volume.diMode, Volume.diMode, h]

/-- Blocks of the data hold no inodes. -/
theorem spare_of_frame (hfp : Filsys.sIsize w.fp = Filsys.sIsize v.fp) (hinode : w.inode = v.inode)
    (hframe : ∀ c, SUPERB < c → c < Filsys.sIsize v.fp → w.disk c = v.disk c ∧ w.cache c = v.cache c) (i : ℕ) :
    w.Spare i ↔ v.Spare i := by
  refine spare_congr hfp (fun j hj hle ↦ diMode_congr ?_) hinode i
  obtain ⟨hdisk, hcache⟩ := hframe (itod j) (itod_mem hj hle).1 (itod_mem hj hle).2
  rw [Volume.view, Volume.view, hdisk, hcache]

theorem Sound.table_of_fp (h : Sound isize fsize v owned) (hfp : Filsys.sIsize w.fp = Filsys.sIsize v.fp)
    (hinode : w.inode = v.inode) : ∀ ip ∈ w.inode, 1 ≤ ip.iNumber ∧ ip.iNumber ≤ w.ninodes := by
  have hall : w.ninodes = v.ninodes := by rw [Volume.ninodes, Volume.ninodes, hfp]
  rw [hinode, hall]
  exact h.table

/-- A step of the block list. -/
theorem Sound.of_keeps {owned' : List ℤ} (h : Sound isize fsize v owned) (hkeeps : KeepsInodes v.fp w.fp)
    (hinode : w.inode = v.inode) (hframe : ∀ c < isize, w.disk c = v.disk c ∧ w.cache c = v.cache c)
    (hblocks : ∃ stack, FreeList w.Clean w.disk w.fp stack ∧ ∀ b, isize ≤ b → b < fsize → (b ∈ owned' ↔ b ∉ stack))
    (hrange : ∀ b ∈ owned', isize ≤ b ∧ b < fsize)
    (hsynced : Filsys.sFmod w.fp = 0 → Accounts w.Clean w.disk (w.disk SUPERB) isize fsize owned' v.spares) :
    Sound isize fsize w owned' := by
  have hspare : ∀ i, w.Spare i ↔ v.Spare i :=
    spare_of_frame hkeeps.sIsize hinode fun c _ hc ↦ hframe c (h.accounts.isize_eq ▸ hc)
  have hsuper : SUPERB < isize := by
    have hlarge := h.large
    omega
  refine ⟨h.large, ⟨?_, ?_, ?_⟩, ⟨?_, ?_, hblocks, ?_⟩, hrange, ?_, ?_, ?_, ?_⟩
  · exact (hkeeps 410 (by decide)).trans h.unlocked.1
  · exact (hkeeps 411 (by decide)).trans h.unlocked.2.1
  · exact (hkeeps 413 (by decide)).trans h.unlocked.2.2
  · exact hkeeps.sIsize.trans h.accounts.isize_eq
  · exact hkeeps.sFsize.trans h.accounts.fsize_eq
  · exact (h.list.of_keeps hkeeps hspare).names
  · exact h.list.of_keeps hkeeps hspare
  · exact h.table_of_fp hkeeps.sIsize hinode
  · exact (hframe SUPERB hsuper).2.trans h.super
  · rw [spares_congr hspare]
    exact hsynced

theorem Sound.pos (h : Sound isize fsize v owned) : 0 < Filsys.sIsize v.fp := by
  have hlarge := h.large
  rw [SUPERB] at hlarge
  rw [h.accounts.isize_eq]
  omega

/-- One more block is owned, or there is none. -/
theorem Sound.alloc (h : Sound isize fsize v owned) :
    Sound isize fsize (alloc v).1 ((alloc v).2.toList ++ owned) := by
  obtain ⟨stack, hlist, hpartition⟩ := h.accounts.blocks
  rcases List.eq_nil_or_concat stack with rfl | ⟨rest, b, rfl⟩
  · obtain ⟨fp, halloc, hkeeps, hfmod, hlist'⟩ := alloc_of_empty hlist h.list.le
    rw [halloc]
    refine h.of_keeps hkeeps rfl (fun _ _ ↦ ⟨rfl, rfl⟩) ⟨[], hlist', hpartition⟩ h.owned_range fun hzero ↦ ?_
    exact h.synced (hfmod.symm.trans hzero)
  · rw [List.concat_eq_append] at hlist hpartition
    obtain ⟨fp, halloc, hkeeps, hfmod, hlist'⟩ := alloc_of_top hlist h.pos h.list.le
    have hbad := not_or.mp (hlist.range b (by simp))
    have hlow : isize ≤ b := h.accounts.isize_eq ▸ not_lt.mp hbad.1
    have hhigh : b < fsize := h.accounts.fsize_eq ▸ not_le.mp hbad.2
    rw [halloc]
    refine h.of_keeps hkeeps rfl (fun c hc ↦ ⟨rfl, Function.update_of_ne (by omega) ..⟩)
      ⟨rest, hlist', fun c hc hc' ↦ ?_⟩ ?_ fun hzero ↦ ?_
    · have hnodup := List.nodup_append'.mp hlist.nodup
      have hsame := hpartition c hc hc'
      rw [Option.toList_some, List.singleton_append, List.mem_cons, hsame, List.mem_append, List.mem_singleton, not_or]
      constructor
      · rintro (rfl | ⟨hrest, -⟩)
        · exact fun hmem ↦ hnodup.2.2 hmem (List.mem_singleton_self _)
        · exact hrest
      · intro hrest
        by_cases heq : c = b
        · exact .inl heq
        · exact .inr ⟨hrest, heq⟩
    · intro c hc
      rcases List.mem_cons.mp hc with rfl | hc
      · exact ⟨hlow, hhigh⟩
      · exact h.owned_range c hc
    · rw [hfmod] at hzero
      exact absurd hzero (by decide)

/-- A block that was owned is free. -/
theorem Sound.free (h : Sound isize fsize v owned) (hb : b ∈ owned) :
    Sound isize fsize (free v b) (owned.filter (· ≠ b)) := by
  obtain ⟨stack, hlist, hpartition⟩ := h.accounts.blocks
  obtain ⟨hlow, hhigh⟩ := h.owned_range b hb
  have hgood : ¬ badblock v.fp b := by
    rw [badblock, h.accounts.isize_eq, h.accounts.fsize_eq]
    omega
  have hmem : b ∉ stack := (hpartition b hlow hhigh).mp hb
  obtain ⟨hlist', hkeeps, hfmod, hinode, hframe⟩ := free_push hlist h.pos h.list.le hgood hmem
  refine h.of_keeps hkeeps hinode (fun c hc ↦ hframe c (by omega)) ⟨_, hlist', fun c hc hc' ↦ ?_⟩ ?_ fun hzero ↦ ?_
  · rw [List.mem_filter, hpartition c hc hc', List.mem_append, List.mem_singleton, not_or, decide_eq_true_iff]
  · intro c hc
    exact h.owned_range c (List.mem_of_mem_filter hc)
  · rw [hfmod] at hzero
    exact absurd hzero (by decide)

/-- A step of the inodes: it works on the blocks of their table. -/
theorem Sound.of_keepsBlocks (h : Sound isize fsize v owned) (hkeeps : KeepsBlocks v.fp w.fp)
    (hframe : ∀ c, c ≤ SUPERB ∨ isize ≤ c → w.disk c = v.disk c ∧ w.cache c = v.cache c) (hlist : InodeList w)
    (htable : ∀ ip ∈ w.inode, 1 ≤ ip.iNumber ∧ ip.iNumber ≤ w.ninodes)
    (hsynced : Filsys.sFmod w.fp = 0 → Filsys.sFmod v.fp = 0 ∧ w.spares = v.spares) :
    Sound isize fsize w owned := by
  have hisize : Filsys.sIsize w.fp = Filsys.sIsize v.fp :=
    short_congr (hkeeps 0 (by decide)) (hkeeps 1 (by decide))
  have hfsize : Filsys.sFsize w.fp = Filsys.sFsize v.fp := long_congr fun i hi ↦ hkeeps (2 + i) (.inl (by omega))
  have hsame (b : ℤ) (hb : isize ≤ b) (hc : v.Clean b) : w.disk b = v.disk b ∧ w.Clean b := by
    obtain ⟨hdisk, hcache⟩ := hframe b (.inr hb)
    exact ⟨hdisk, hcache.trans hc⟩
  have hsuper := hframe SUPERB (.inl le_rfl)
  have haccounts : Accounts w.Clean w.disk v.fp isize fsize owned v.spares :=
    h.accounts.congr fun b hb _ _ hc ↦ hsame b hb hc
  obtain ⟨stack, hstack, hpartition⟩ := haccounts.blocks
  refine ⟨h.large, ⟨?_, ?_, ?_⟩, ⟨?_, ?_, ⟨stack, hstack.of_keeps hkeeps, hpartition⟩, hlist.names⟩, h.owned_range,
    hlist, htable, hsuper.2.trans h.super, fun hzero ↦ ?_⟩
  · exact (hkeeps 410 (by decide)).trans h.unlocked.1
  · exact (hkeeps 411 (by decide)).trans h.unlocked.2.1
  · exact (hkeeps 413 (by decide)).trans h.unlocked.2.2
  · exact hisize.trans h.accounts.isize_eq
  · exact hfsize.trans h.accounts.fsize_eq
  · obtain ⟨hzero', hspares⟩ := hsynced hzero
    rw [hspares, hsuper.1]
    exact (h.synced hzero').congr fun b hb _ _ hc ↦ hsame b hb hc

theorem ninodes_congr (hfp : Filsys.sIsize w.fp = Filsys.sIsize v.fp) : w.ninodes = v.ninodes := by
  rw [Volume.ninodes, Volume.ninodes, hfp]

/-- A call of `ialloc` that returns. -/
theorem Sound.ialloc {fuel : ℕ} {r : Option ℕ} (h : Sound isize fsize v owned) (hnumbered : v.Numbered)
    (hrun : ialloc v fuel = some (w, r)) : Sound isize fsize w owned := by
  obtain ⟨stack, hstack, -⟩ := h.accounts.blocks
  rw [Filsys.ialloc, getfs_eq hstack.le h.list.le] at hrun
  have hspec := iallocLoop_spec h.list hnumbered hrun
  have hisize : Filsys.sIsize w.fp = Filsys.sIsize v.fp :=
    short_congr (hspec.keeps 0 (by decide)) (hspec.keeps 1 (by decide))
  have hall := ninodes_congr hisize
  have hframe (c : ℤ) : w.disk c = v.disk c ∧ w.cache c = v.cache c :=
    ⟨congrFun hspec.disk c, congrFun hspec.cache c⟩
  obtain ⟨ino, -, -, hspare, hinode, hfmod⟩ | ⟨-, hinode, hfmod, -⟩ := hspec.result
  · refine h.of_keepsBlocks hspec.keeps (fun c _ ↦ hframe c) hspec.list ?_ fun hzero ↦ ?_
    · intro ip hip
      rw [hinode] at hip
      rw [hall]
      rcases List.mem_cons.mp hip with rfl | hip
      · exact hspare.1
      · exact h.table ip hip
    · rw [hfmod] at hzero
      exact absurd hzero (by decide)
  · refine h.of_keepsBlocks hspec.keeps (fun c _ ↦ hframe c) hspec.list (h.table_of_fp hisize hinode) fun hzero ↦ ?_
    refine ⟨hfmod.symm.trans hzero, ?_⟩
    exact spares_congr (spare_of_frame hisize hinode fun c _ _ ↦ hframe c)

/-- An inode whose last reference goes is spare. -/
theorem spare_iputFree {ip : Inode} {fp : Superblock} (hfree : ifree v ip.iNumber = { v with fp })
    (hfp : Filsys.sIsize fp = Filsys.sIsize v.fp) (hrange : 1 ≤ ip.iNumber ∧ ip.iNumber ≤ v.ninodes) (i : ℕ) :
    (iputFree v ip).Spare i ↔ v.Spare i ∨ i = ip.iNumber := by
  have hall : (iputFree v ip).ninodes = v.ninodes := by
    rw [iputFree, hfree]
    exact ninodes_congr hfp
  have htable : (iputFree v ip).inode = v.inode.filter fun p ↦ p.iNumber ≠ ip.iNumber := by
    rw [iputFree, hfree]
    rfl
  rw [Volume.Spare, Volume.Spare, hall, htable]
  by_cases heq : i = ip.iNumber
  · subst heq
    have hmode : (iputFree v ip).diMode ip.iNumber = 0 := by
      rw [iputFree, hfree]
      exact diMode_iupdat_self { v with fp } { ip with iMode := 0 }
    refine iff_of_true ⟨hrange, hmode, fun p hp ↦ ?_⟩ (.inr rfl)
    exact of_decide_eq_true (List.mem_filter.mp hp).2
  · have hmode : (iputFree v ip).diMode i = v.diMode i := by
      rw [iputFree, hfree]
      exact @diMode_iupdat_of_ne { v with fp } i { ip with iMode := 0 } heq
    rw [hmode, or_iff_left heq]
    refine and_congr_right fun _ ↦ and_congr_right fun _ ↦ ⟨fun hne p hp hsame ↦ ?_, fun hne p hp ↦ ?_⟩
    · exact hne p (List.mem_filter.mpr ⟨hp, decide_eq_true (hsame ▸ heq)⟩) hsame
    · exact hne p (List.mem_of_mem_filter hp)

/-- An allocated inode becomes spare. The super block must hold its number, or be marked already. -/
theorem Sound.iputFree {ip : Inode} (h : Sound isize fsize v owned) (halloc : v.Allocated ip.iNumber) (hino : ip.iNumber < 65536)
    (hroom : sNinode v.fp < NICINOD ∨ Filsys.sFmod v.fp ≠ 0) (hcount : v.spares.card + 1 < 65536) :
    Sound isize fsize (iputFree v ip) owned := by
  obtain ⟨stack, hstack, -⟩ := h.accounts.blocks
  obtain ⟨fp, hfree, hifreed⟩ := @ifree_spec v ip.iNumber (getfs_eq hstack.le h.list.le) h.unlocked.2.1 h.list.nonneg h.list.le hino
  have hspare := spare_iputFree hfree hifreed.isize halloc.1
  have hfp : (Filsys.iputFree v ip).fp = fp := by
    rw [Filsys.iputFree, hfree]
    rfl
  have hspares : (Filsys.iputFree v ip).spares = insert ip.iNumber v.spares := by
    ext i
    rw [mem_spares, hspare, Finset.mem_insert, mem_spares, or_comm]
  have hcard : (Filsys.iputFree v ip).spares.card = v.spares.card + 1 := by
    rw [hspares, Finset.card_insert_of_notMem]
    exact fun hmem ↦ halloc.2 (mem_spares.mp hmem)
  have hpos : ip.iNumber ≠ 0 := Nat.ne_of_gt halloc.1.1
  have hall : (Filsys.iputFree v ip).ninodes = v.ninodes := ninodes_congr (by rw [hfp]; exact hifreed.isize)
  have hblock := itod_mem halloc.1.1 halloc.1.2
  rw [h.accounts.isize_eq] at hblock
  refine h.of_keepsBlocks (hfp ▸ hifreed.keeps) (fun c hc ↦ ?_) ⟨?_, ?_, ?_, ?_, ?_, ?_⟩ ?_ fun hzero ↦ ?_
  · have hne : c ≠ itod ip.iNumber := by omega
    rw [Filsys.iputFree, hfree]
    exact ⟨rfl, Function.update_of_ne hne ..⟩
  · rw [hfp]
    exact hifreed.nonneg
  · rw [hfp]
    exact hifreed.le
  · rw [hfp]
    rcases hifreed.inodes_eq with heq | heq
    · rw [heq]
      exact h.list.nodup
    · rw [heq, List.nodup_append']
      refine ⟨h.list.nodup, List.nodup_singleton _, ?_⟩
      rw [List.disjoint_singleton]
      exact fun hmem ↦ halloc.2 (h.list.spare ip.iNumber hmem hpos)
  · intro i hi hne
    rw [hspare]
    rw [hfp] at hi
    rcases hifreed.inodes_eq with heq | heq
    · exact .inl (h.list.spare i (heq ▸ hi) hne)
    · rw [heq] at hi
      rcases List.mem_append.mp hi with hi | hi
      · exact .inl (h.list.spare i hi hne)
      · exact .inr (List.mem_singleton.mp hi)
  · have htotal := hifreed.total
    have hbefore := h.list.total
    rw [hfp, hcard]
    omega
  · rw [hall]
    exact h.list.bound
  · intro p hp
    rw [hall]
    rw [Filsys.iputFree, hfree] at hp
    exact h.table p (List.mem_of_mem_filter hp)
  · rw [hfp] at hzero
    rcases hifreed.fmod with hone | ⟨hfull, hsame⟩
    · rw [hone] at hzero
      exact absurd hzero (by decide)
    · rcases hroom with hroom | hmarked
      · exact absurd hfull (not_le.mpr hroom)
      · exact absurd (hsame.symm.trans hzero) hmarked

end Accounts

section Update

variable {isize fsize : ℤ} {v w : Volume} {owned : List ℤ}

/-- The super block on the disk is the one in core. -/
theorem Sound.superWritten {fp : Superblock} {disk : ℤ → Buffer} {cache : ℤ → Option Buffer}
    (h : Sound isize fsize v owned) (hbyte : ∀ i, i < 412 ∨ i = 413 ∨ 418 ≤ i → fp i = v.fp i)
    (hdisk : ∀ c, c ≠ SUPERB → disk c = v.disk c) (hcache : ∀ c, c ≠ SUPERB → cache c = v.cache c)
    (hsuper : ∀ i < 512, disk SUPERB i = fp i) (hclean : cache SUPERB = none) :
    Sound isize fsize { v with fp, disk, cache } owned := by
  have hlarge := h.large
  have hkeeps : KeepsInodes v.fp fp := fun i hi ↦ hbyte i (by omega)
  have hspare : ∀ i, ({ v with fp, disk, cache } : Volume).Spare i ↔ v.Spare i :=
    spare_of_frame hkeeps.sIsize rfl fun c hc _ ↦ ⟨hdisk c (by omega), hcache c (by omega)⟩
  have hcore : Accounts v.Clean v.disk fp isize fsize owned v.spares :=
    h.accounts.of_bytes fun i hi ↦ hbyte i (by omega)
  have haccounts : Accounts (fun c ↦ cache c = none) disk fp isize fsize owned v.spares :=
    hcore.congr fun b hb _ _ hc ↦ ⟨hdisk b (by omega), (hcache b (by omega)).trans hc⟩
  refine ⟨h.large, ⟨?_, ?_, ?_⟩, ?_, h.owned_range, ?_, ?_, hclean, fun _ ↦ ?_⟩
  · exact (hbyte 410 (by decide)).trans h.unlocked.1
  · exact (hbyte 411 (by decide)).trans h.unlocked.2.1
  · exact (hbyte 413 (by decide)).trans h.unlocked.2.2
  · rw [spares_congr hspare]
    exact haccounts
  · exact h.list.of_keeps hkeeps hspare
  · exact h.table_of_fp hkeeps.sIsize rfl
  · rw [spares_congr hspare]
    exact haccounts.of_bytes fun i hi ↦ hsuper i (by omega)

/-- The super block that goes to the disk. -/
theorem Sound.writeSuper (h : Sound isize fsize v owned) (time : ℤ) :
    Sound isize fsize (writeSuper v time) owned ∧ sFmod (writeSuper v time).fp = 0 := by
  by_cases hzero : sFmod v.fp = 0
  · have hsame : Filsys.writeSuper v time = v := if_pos (.inl hzero)
    rw [hsame]
    exact ⟨h, hzero⟩
  · have hwrite : ¬ (sFmod v.fp = 0 ∨ sIlock v.fp ≠ 0 ∨ sFlock v.fp ≠ 0 ∨ sRonly v.fp ≠ 0) := by
      rintro (hmod | hlock | hlock | hronly)
      · exact hzero hmod
      · exact hlock h.unlocked.2.1
      · exact hlock h.unlocked.1
      · exact hronly h.unlocked.2.2
    have hmark : setTime (setFmod v.fp 0) time 412 = setFmod v.fp 0 412 := setLong_apply_of_apart (by decide)
    rw [Filsys.writeSuper, if_neg hwrite]
    refine ⟨h.superWritten (fun i hi ↦ ?_) (fun c hc ↦ Function.update_of_ne hc ..)
      (fun c hc ↦ Function.update_of_ne hc ..) (fun i hi ↦ ?_) (Function.update_self ..), ?_⟩
    · exact (setLong_apply_of_apart (by omega)).trans (setFmod_apply_of_ne _ _ (by omega))
    · have hcopy := @put_get_apply (v.view SUPERB) (setTime (setFmod v.fp 0) time) 0 0 512 i hi
      rw [Nat.zero_add] at hcopy
      rw [Function.update_self, hcopy]
    · exact hmark.trans (sFmod_setFmod v.fp 0)

/-- What the modes of the inodes in core leave as it is. -/
structure ModesOnly (v w : Volume) : Prop where
  fp : w.fp = v.fp
  disk : w.disk = v.disk
  inode : w.inode = v.inode
  cache : ∀ c, c ≤ SUPERB ∨ sIsize v.fp ≤ c → w.cache c = v.cache c
  mode : ∀ i, (∀ ip ∈ v.inode, ip.iNumber ≠ i) → w.diMode i = v.diMode i

theorem ModesOnly.iupdat {ip : Inode} (h : ModesOnly v w) (hmem : ip ∈ v.inode)
    (hrange : 1 ≤ ip.iNumber ∧ ip.iNumber ≤ v.ninodes) : ModesOnly v (w.iupdat ip) := by
  have hblock := itod_mem hrange.1 hrange.2
  refine ⟨h.fp, h.disk, h.inode, fun c hc ↦ ?_, fun i hi ↦ ?_⟩
  · exact (Function.update_of_ne (by omega) ..).trans (h.cache c hc)
  · exact (diMode_iupdat_of_ne (hi ip hmem).symm).trans (h.mode i hi)

theorem ModesOnly.foldl {l : List Inode} (h : ModesOnly v w) (hmem : ∀ ip ∈ l, ip ∈ v.inode)
    (hrange : ∀ ip ∈ v.inode, 1 ≤ ip.iNumber ∧ ip.iNumber ≤ v.ninodes) :
    ModesOnly v (l.foldl (fun w ip ↦ w.iupdat ip) w) := by
  induction l generalizing w with
  | nil => exact h
  | cons ip l ih =>
    have hip := hmem ip List.mem_cons_self
    exact ih (h.iupdat hip (hrange ip hip)) fun p hp ↦ hmem p (List.mem_cons_of_mem _ hp)

theorem ModesOnly.keepsSpare (h : ModesOnly v w) (i : ℕ) : w.Spare i ↔ v.Spare i := by
  have hall : w.ninodes = v.ninodes := ninodes_congr (congrArg sIsize h.fp)
  rw [Volume.Spare, Volume.Spare, hall, h.inode]
  refine and_congr_right fun _ ↦ and_congr_left fun htable ↦ ?_
  rw [h.mode i htable]

/-- The modes of the inodes in core go to their buffers, and nothing becomes spare by it. -/
theorem Sound.writeInodes (h : Sound isize fsize v owned) :
    Sound isize fsize (writeInodes v) owned ∧ (writeInodes v).fp = v.fp := by
  have hstart : ModesOnly v v := ⟨rfl, rfl, rfl, fun _ _ ↦ rfl, fun _ _ ↦ rfl⟩
  have hmodes : ModesOnly v _ :=
    hstart.foldl (l := v.inode.filter fun ip ↦ ip.due) (fun ip hip ↦ List.mem_of_mem_filter hip) h.table
  have hspare (i : ℕ) : (Filsys.writeInodes v).Spare i ↔ v.Spare i := by
    rw [← hmodes.keepsSpare i]
    have hall : (Filsys.writeInodes v).ninodes = v.ninodes := ninodes_congr (congrArg sIsize hmodes.fp)
    have hall' := ninodes_congr (congrArg sIsize hmodes.fp)
    rw [Volume.Spare, Volume.Spare, hall, hall', hmodes.inode]
    refine and_congr_right fun _ ↦ and_congr_right fun _ ↦ ?_
    exact List.forall_mem_map
  have hframe (c : ℤ) (hc : c ≤ SUPERB ∨ isize ≤ c) :
      (Filsys.writeInodes v).disk c = v.disk c ∧ (Filsys.writeInodes v).cache c = v.cache c :=
    ⟨congrFun hmodes.disk c, hmodes.cache c (h.accounts.isize_eq.symm ▸ hc)⟩
  have hfp : (Filsys.writeInodes v).fp = v.fp := hmodes.fp
  refine ⟨h.of_keepsBlocks ?_ hframe ?_ ?_ fun hzero ↦ ?_, hfp⟩
  · rw [hfp]
    exact fun _ _ ↦ rfl
  · refine h.list.of_keeps ?_ hspare
    rw [hfp]
    exact fun _ _ ↦ rfl
  · intro ip hip
    obtain ⟨p, hp, rfl⟩ := List.mem_map.mp hip
    rw [ninodes_congr (congrArg sIsize hfp)]
    exact h.table p hp
  · rw [spares_congr hspare]
    exact ⟨hfp ▸ hzero, rfl⟩

/-- What the buffers show is on the disk. -/
theorem Sound.bflush (h : Sound isize fsize v owned) : Sound isize fsize (bflush v) owned := by
  have hview (b : ℤ) (hc : v.Clean b) : v.view b = v.disk b := by
    rw [Volume.view, hc, Option.getD_none]
  have hspare (i : ℕ) : (Filsys.bflush v).Spare i ↔ v.Spare i :=
    spare_congr rfl (fun _ _ _ ↦ diMode_congr rfl) rfl i
  refine ⟨h.large, h.unlocked, ?_, h.owned_range, ?_, h.table, rfl, fun hzero ↦ ?_⟩
  · rw [spares_congr hspare]
    exact h.accounts.congr fun b _ _ _ hc ↦ ⟨hview b hc, rfl⟩
  · exact h.list.of_keeps (fun _ _ ↦ rfl) hspare
  · have hdisk : (Filsys.bflush v).disk SUPERB = v.disk SUPERB := hview SUPERB h.super
    rw [spares_congr hspare, hdisk]
    exact (h.synced hzero).congr fun b _ _ _ hc ↦ ⟨hview b hc, rfl⟩

theorem Sound.update (h : Sound isize fsize v owned) (time : ℤ) :
    Sound isize fsize (update v time) owned ∧ sFmod (update v time).fp = 0 := by
  obtain ⟨hsuper, hzero⟩ := h.writeSuper time
  obtain ⟨hinodes, hfp⟩ := hsuper.writeInodes
  exact ⟨hinodes.bflush, (congrArg sFmod hfp).trans hzero⟩

/-- The super block on the disk is right after an update. -/
theorem Sound.accounts_update (h : Sound isize fsize v owned) (time : ℤ) :
    Accounts (fun _ ↦ True) (Filsys.update v time).disk ((Filsys.update v time).disk SUPERB) isize fsize owned
      (Filsys.update v time).spares := by
  obtain ⟨hupdate, hzero⟩ := h.update time
  exact (hupdate.synced hzero).congr fun _ _ _ _ _ ↦ ⟨rfl, trivial⟩

end Update

end S8000.Filsys
