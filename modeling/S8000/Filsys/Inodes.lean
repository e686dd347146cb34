import S8000.Filsys.FreeList
import Mathlib.Data.Finset.Card
import Mathlib.Data.Finset.Range

namespace S8000.Filsys

open Foundation Foundation.Bytes Foundation.Buffer

def NINODE : ℕ := 200

section Code

variable (v : Volume)

def itod (ino : ℕ) : ℤ := ((ino + 15) / 8 : ℕ)

def itoo (ino : ℕ) : ℕ := (ino + 15) % 8

/-- An inode as the buffers show it. -/
def Volume.dinode (ino : ℕ) : Inode := iexpand ino (v.view (itod ino)) (64 * itoo ino)

def Volume.diMode (ino : ℕ) : ℕ := ushort (v.view (itod ino)) (64 * itoo ino)

/-- The number of an entry of the table that is not in use is zero. -/
def Volume.inCore (ino : ℕ) : Prop :=
  (∃ ip ∈ v.inode, ip.iNumber = ino) ∨ ino = 0 ∧ v.inode.length < NINODE

instance (ino : ℕ) : Decidable (v.inCore ino) := inferInstanceAs (Decidable (_ ∨ _))

/-- The inode that `iget` returns; `none` when the table is full. -/
def iget (ino : ℕ) : Option Inode :=
  match v.inode.find? fun ip ↦ ip.iNumber = ino with
  | some ip => some ip
  | none => if v.inode.length < NINODE then some (v.dinode ino) else none

/-- An inode without blocks. -/
def Inode.clear (ip : Inode) : Inode := { ip with iAddr := fun _ ↦ 0 }

/-- The table with an inode in the place of the one that has its number, if any. -/
def Volume.enter (ip : Inode) : List Inode := ip :: v.inode.filter fun p ↦ p.iNumber ≠ ip.iNumber

/-- One inode of the linear search; its number has 16 bits. -/
def scan (fp : Superblock) (i : ℕ) : Superblock :=
  if NICINOD ≤ sNinode fp then fp
  else if v.diMode i ≠ 0 then fp
  else if v.inCore (i % 65536) then fp
  else setNinode (setInode fp (sNinode fp).toNat (i % 65536 : ℕ)) (sNinode fp + 1)

def search (fp : Superblock) : Superblock :=
  (List.range' 1 (NIPB * (sIsize fp - (SUPERB + 1)).toNat)).foldl (scan v) fp

/-- The loop of `ialloc`, which need not end: `none` when it takes more rounds than `fuel`. The second part of the
result is `none` for no inode. -/
def iallocLoop : ℕ → Volume → Option (Volume × Option ℕ)
  | 0, _ => none
  | fuel + 1, v =>
    if 0 < sNinode v.fp then
      let fp := setNinode v.fp (sNinode v.fp - 1)
      let ino := sInode fp (sNinode fp).toNat
      if ino < ROOTINO then iallocLoop fuel { v with fp }
      else
        match iget { v with fp } ino with
        | none => some ({ v with fp }, none)
        | some ip =>
          if ip.iMode = 0 then
            let counted := if sTinode fp ≠ 0 then setTinode fp (sTinode fp - 1) else fp
            some ({ v with fp := setFmod counted 1, inode := v.enter ip.clear }, some ino)
          else iallocLoop fuel { v with fp }
    else
      let fp := search v v.fp
      if 0 < sNinode fp then iallocLoop fuel { v with fp } else some ({ v with fp := setTinode fp 0 }, none)

def ialloc (fuel : ℕ) : Option (Volume × Option ℕ) := iallocLoop fuel { v with fp := getfs v.fp }

def ifree (ino : ℕ) : Volume :=
  let fp := getfs v.fp
  let counted := setTinode fp (sTinode fp + 1)
  if sIlock counted ≠ 0 then { v with fp := counted }
  else if NICINOD ≤ sNinode counted then { v with fp := counted }
  else
    { v with fp := setFmod (setNinode (setInode counted (sNinode counted).toNat ino) (sNinode counted + 1)) 1 }

end Code

section List

/-- The numbers that the super block remembers. -/
def inodes (fp : Superblock) : List ℕ := (List.range (sNinode fp).toNat).map fun k ↦ sInode fp k

/-- What the list of inodes alone does not touch. -/
def KeepsTotals (fp fp' : Superblock) : Prop := ∀ i, i < 208 ∨ 410 ≤ i → fp' i = fp i

variable {fp fp' fp'' : Superblock}

theorem KeepsTotals.trans (h : KeepsTotals fp fp') (h' : KeepsTotals fp' fp'') : KeepsTotals fp fp'' :=
  fun i hi ↦ (h' i hi).trans (h i hi)

theorem KeepsTotals.keepsBlocks (h : KeepsTotals fp fp') : KeepsBlocks fp fp' :=
  fun i hi ↦ h i (by omega)

theorem KeepsTotals.sIsize (h : KeepsTotals fp fp') : sIsize fp' = sIsize fp :=
  short_congr (h 0 (by decide)) (h 1 (by decide))

theorem KeepsTotals.sTinode (h : KeepsTotals fp fp') : sTinode fp' = sTinode fp :=
  ushort_congr (h 422 (by decide)) (h 423 (by decide))

theorem KeepsTotals.sFmod (h : KeepsTotals fp fp') : sFmod fp' = sFmod fp :=
  h 412 (by decide)

theorem length_inodes (fp : Superblock) : (inodes fp).length = (sNinode fp).toNat := by
  rw [inodes, List.length_map, List.length_range]

theorem inodes_congr (h : ∀ i, 208 ≤ i → i < 410 → fp' i = fp i) (hle : sNinode fp ≤ NICINOD) :
    inodes fp' = inodes fp := by
  have hsame : sNinode fp' = sNinode fp := short_congr (h 208 (by decide) (by decide)) (h 209 (by decide) (by decide))
  rw [inodes, inodes, hsame]
  refine List.map_congr_left fun k hk ↦ ?_
  have hlt : k < 100 := by
    rw [List.mem_range, NICINOD] at *
    omega
  exact ushort_congr (h _ (by omega) (by omega)) (h _ (by omega) (by omega))

theorem inodes_of_pos (h : 0 < sNinode fp) (hle : sNinode fp ≤ NICINOD) :
    inodes fp = inodes (setNinode fp (sNinode fp - 1)) ++ [sInode fp (sNinode fp - 1).toNat] := by
  rw [NICINOD] at hle
  have hset : sNinode (setNinode fp (sNinode fp - 1)) = sNinode fp - 1 := short_setShort (by omega)
  have hlen : (sNinode fp).toNat = (sNinode fp - 1).toNat + 1 := by omega
  rw [inodes, inodes, hset, hlen, List.range_succ, List.map_append]
  refine congrArg₂ (· ++ ·) (List.map_congr_left fun k _ ↦ ?_) rfl
  exact (ushort_setShort_of_apart (by omega)).symm

theorem sInode_setNinode (fp : Superblock) (v : ℤ) (k : ℕ) : sInode (setNinode fp v) k = sInode fp k :=
  ushort_setShort_of_apart (by omega)

theorem inodes_push (h : 0 ≤ sNinode fp) (hlt : sNinode fp < NICINOD) {ino : ℕ} (hino : ino < 65536) :
    inodes (setNinode (setInode fp (sNinode fp).toNat ino) (sNinode fp + 1)) = inodes fp ++ [ino] := by
  rw [NICINOD] at hlt
  have hset : sNinode (setNinode (setInode fp (sNinode fp).toNat ino) (sNinode fp + 1)) = sNinode fp + 1 :=
    short_setShort (by omega)
  rw [inodes, hset, show (sNinode fp + 1).toNat = (sNinode fp).toNat + 1 by omega, List.range_succ, List.map_append]
  refine congrArg₂ (· ++ ·) (List.map_congr_left fun k hk ↦ ?_) ?_
  · have hlt := List.mem_range.mp hk
    rw [sInode_setNinode]
    exact ushort_setShort_of_apart (by omega)
  · have hvalue : (sInode (setInode fp (sNinode fp).toNat ino) (sNinode fp).toNat : ℤ) = ino % 65536 := ushort_setShort
    rw [List.map_singleton, sInode_setNinode]
    refine congrArg (fun a ↦ [a]) ?_
    omega

theorem keeps_setNinode (fp : Superblock) (v : ℤ) : KeepsTotals fp (setNinode fp v) :=
  fun _ hi ↦ setShort_apply_of_apart (by omega)

theorem keeps_setInode (fp : Superblock) {k : ℕ} (hk : k < 100) (v : ℤ) : KeepsTotals fp (setInode fp k v) :=
  fun _ hi ↦ setShort_apply_of_apart (by omega)

end List

section Search

variable {v : Volume} {fp : Superblock}

/-- The inodes that the search puts on the list. -/
def Volume.Found (v : Volume) (i : ℕ) : Prop := v.diMode i = 0 ∧ ¬ v.inCore (i % 65536)

instance (v : Volume) (i : ℕ) : Decidable (v.Found i) := inferInstanceAs (Decidable (_ ∧ _))

theorem scan_of_full (h : NICINOD ≤ sNinode fp) (i : ℕ) : scan v fp i = fp :=
  if_pos h

theorem scan_of_found (h : sNinode fp < NICINOD) {i : ℕ} (hi : v.Found i) :
    scan v fp i = setNinode (setInode fp (sNinode fp).toNat (i % 65536 : ℕ)) (sNinode fp + 1) := by
  rw [scan, if_neg (not_le.mpr h), if_neg (not_not.mpr hi.1), if_neg hi.2]

theorem scan_of_not_found {i : ℕ} (hi : ¬ v.Found i) : scan v fp i = fp := by
  unfold scan
  split
  · rfl
  · split
    · rfl
    · rename_i hmode
      exact if_pos (not_not.mp fun hcore ↦ hi ⟨not_not.mp hmode, hcore⟩)

/-- What is on the list while the search goes on. -/
structure Searched (v : Volume) (start fp : Superblock) (l : List ℕ) : Prop where
  keeps : KeepsTotals start fp
  nonneg : 0 ≤ sNinode fp
  le : sNinode fp ≤ NICINOD
  inodes_eq : inodes fp = ((l.filter fun i ↦ v.Found i).map (· % 65536)).take 100

theorem Searched.scan {start : Superblock} {l : List ℕ} (h : Searched v start fp l) (i : ℕ) :
    Searched v start (scan v fp i) (l ++ [i]) := by
  have hlen : (inodes fp).length = (sNinode fp).toNat := length_inodes fp
  have hle := h.le
  rw [NICINOD] at hle
  have heq := h.inodes_eq
  by_cases hfound : v.Found i
  · have hfilter : ((l ++ [i]).filter fun i ↦ v.Found i).map (· % 65536) =
        (l.filter fun i ↦ v.Found i).map (· % 65536) ++ [i % 65536] := by
      rw [List.filter_append, List.map_append, List.filter_singleton, decide_eq_true hfound, cond_true,
        List.map_singleton]
    generalize (l.filter fun i ↦ v.Found i).map (· % 65536) = all at heq hfilter
    have hlength : (inodes fp).length = min 100 all.length := by rw [heq, List.length_take]
    by_cases hfull : NICINOD ≤ sNinode fp
    · rw [scan_of_full hfull]
      rw [NICINOD] at hfull
      refine ⟨h.keeps, h.nonneg, h.le, ?_⟩
      rw [hfilter, List.take_append_of_le_length (by omega)]
      exact heq
    · have hlt := not_le.mp hfull
      have hlt' := hlt
      rw [NICINOD] at hlt'
      have hnonneg := h.nonneg
      have hset : sNinode (setNinode (setInode fp (sNinode fp).toNat (i % 65536 : ℕ)) (sNinode fp + 1)) =
          sNinode fp + 1 := short_setShort (by omega)
      rw [scan_of_found hlt hfound]
      refine ⟨(h.keeps.trans (keeps_setInode fp (by omega) _)).trans (keeps_setNinode _ _), ?_, ?_, ?_⟩
      · rw [hset]
        omega
      · rw [hset, NICINOD]
        omega
      · rw [inodes_push hnonneg hlt (Nat.mod_lt i (by decide)), hfilter, heq, List.take_of_length_le (by omega),
          List.take_of_length_le]
        rw [List.length_append, List.length_singleton]
        omega
  · rw [scan_of_not_found hfound]
    refine ⟨h.keeps, h.nonneg, h.le, ?_⟩
    rw [List.filter_append, List.filter_singleton, decide_eq_false hfound, cond_false, List.append_nil]
    exact heq

theorem Searched.foldl {start : Superblock} (l rest : List ℕ) (h : Searched v start fp l) :
    Searched v start (rest.foldl (Filsys.scan v) fp) (l ++ rest) := by
  induction rest generalizing l fp with
  | nil => rwa [List.append_nil]
  | cons i rest ih =>
    rw [List.append_cons]
    exact ih _ (h.scan i)

theorem Searched.start (v : Volume) (h : sNinode fp = 0) : Searched v fp fp [] := by
  have hlen : (inodes fp).length = (sNinode fp).toNat := length_inodes fp
  have hnil : inodes fp = [] := List.length_eq_zero_iff.mp (by omega)
  refine ⟨fun _ _ ↦ rfl, h.ge, ?_, hnil⟩
  rw [h]
  decide

theorem Searched.all (v : Volume) (h : sNinode fp = 0) (l : List ℕ) : Searched v fp (l.foldl (Filsys.scan v) fp) l :=
  (Searched.start v h).foldl [] l

theorem searched (v : Volume) (h : sNinode fp = 0) :
    Searched v fp (search v fp) (List.range' 1 (NIPB * (sIsize fp - (SUPERB + 1)).toNat)) :=
  Searched.all v h _

end Search

section Spare

variable {v w : Volume} {fp : Superblock} {ino : ℕ}

def Volume.ninodes (v : Volume) : ℕ := NIPB * (sIsize v.fp - (SUPERB + 1)).toNat

/-- An inode of the disk that is not allocated: neither has it a mode nor is it in core. -/
def Volume.Spare (v : Volume) (i : ℕ) : Prop :=
  (1 ≤ i ∧ i ≤ v.ninodes) ∧ v.diMode i = 0 ∧ ∀ ip ∈ v.inode, ip.iNumber ≠ i

instance (v : Volume) (i : ℕ) : Decidable (v.Spare i) := inferInstanceAs (Decidable (_ ∧ _))

def Volume.spares (v : Volume) : Finset ℕ := (Finset.range (v.ninodes + 1)).filter v.Spare

/-- The list of inodes holds spare ones, and the total counts all of them. Zero stands for inode 65536. -/
structure InodeList (v : Volume) : Prop where
  nonneg : 0 ≤ sNinode v.fp
  le : sNinode v.fp ≤ NICINOD
  nodup : (inodes v.fp).Nodup
  spare : ∀ ino ∈ inodes v.fp, ino ≠ 0 → v.Spare ino
  total : sTinode v.fp = v.spares.card
  bound : v.ninodes ≤ 65536

theorem mem_spares : ino ∈ v.spares ↔ v.Spare ino := by
  rw [Volume.spares, Finset.mem_filter, Finset.mem_range]
  exact and_iff_right_of_imp fun h ↦ Nat.lt_succ_of_le h.1.2

/-- The part of it that a super block says. -/
structure Names (fp : Superblock) (spares : Finset ℕ) : Prop where
  nonneg : 0 ≤ sNinode fp
  le : sNinode fp ≤ NICINOD
  nodup : (inodes fp).Nodup
  spare : ∀ ino ∈ inodes fp, ino ≠ 0 → ino ∈ spares
  total : sTinode fp = spares.card

theorem InodeList.names (h : InodeList v) : Names v.fp v.spares :=
  ⟨h.nonneg, h.le, h.nodup, fun ino hino hne ↦ mem_spares.mpr (h.spare ino hino hne), h.total⟩

theorem Names.inodeList (h : Names v.fp v.spares) (hbound : v.ninodes ≤ 65536) : InodeList v :=
  ⟨h.nonneg, h.le, h.nodup, fun ino hino hne ↦ mem_spares.mp (h.spare ino hino hne), h.total, hbound⟩

theorem spares_congr (h : ∀ i, w.Spare i ↔ v.Spare i) : w.spares = v.spares := by
  ext i
  rw [mem_spares, mem_spares, h]

theorem spare_congr (hfp : sIsize w.fp = sIsize v.fp) (hmode : ∀ i, 1 ≤ i → i ≤ v.ninodes → w.diMode i = v.diMode i)
    (hinode : w.inode = v.inode) (i : ℕ) : w.Spare i ↔ v.Spare i := by
  have hall : w.ninodes = v.ninodes := by rw [Volume.ninodes, Volume.ninodes, hfp]
  rw [Volume.Spare, Volume.Spare, hall, hinode]
  refine and_congr_right fun hi ↦ ?_
  rw [hmode i hi.1 hi.2]

theorem spare_with_fp (hfp : sIsize fp = sIsize v.fp) (i : ℕ) : ({ v with fp } : Volume).Spare i ↔ v.Spare i :=
  @spare_congr v { v with fp } hfp (fun _ _ _ ↦ rfl) rfl i

theorem InodeList.with_list (h : InodeList v) (hkeeps : KeepsTotals v.fp fp) (hnonneg : 0 ≤ sNinode fp)
    (hle : sNinode fp ≤ NICINOD) (hnodup : (inodes fp).Nodup) (hspare : ∀ ino ∈ inodes fp, ino ≠ 0 → v.Spare ino) :
    InodeList { v with fp } := by
  have hsame := spare_with_fp (v := v) hkeeps.sIsize
  refine ⟨hnonneg, hle, hnodup, fun ino hino hne ↦ (hsame ino).mpr (hspare ino hino hne), ?_, ?_⟩
  · rw [spares_congr hsame, ← h.total]
    exact hkeeps.sTinode
  · have hall : ({ v with fp } : Volume).ninodes = v.ninodes := by
      rw [Volume.ninodes, Volume.ninodes]
      exact congrArg (fun n ↦ NIPB * (n - (SUPERB + 1)).toNat) hkeeps.sIsize
    rw [hall]
    exact h.bound

theorem found_of_spare (h : v.Spare ino) (hlt : ino < 65536) : v.Found ino := by
  refine ⟨h.2.1, ?_⟩
  rw [Nat.mod_eq_of_lt hlt]
  rintro (⟨ip, hip, heq⟩ | ⟨hzero, -⟩)
  · exact h.2.2 ip hip heq
  · have hpos := h.1.1
    omega

theorem spare_of_found (h : v.Found ino) (hpos : 1 ≤ ino) (hle : ino ≤ v.ninodes) (hlt : ino < 65536) : v.Spare ino := by
  refine ⟨⟨hpos, hle⟩, h.1, fun ip hip heq ↦ h.2 (.inl ⟨ip, hip, ?_⟩)⟩
  rw [Nat.mod_eq_of_lt hlt]
  exact heq

/-- The list after a search. -/
theorem InodeList.search (h : InodeList v) (hzero : sNinode v.fp = 0) : InodeList { v with fp := search v v.fp } := by
  have hsearched := searched v hzero
  refine h.with_list hsearched.keeps hsearched.nonneg hsearched.le ?_ ?_
  · rw [hsearched.inodes_eq]
    refine List.Nodup.sublist (List.take_sublist ..) (List.Nodup.map_on ?_ (List.Nodup.filter _ List.nodup_range'))
    intro a ha b hb heq
    have ha' := List.mem_range'_1.mp (List.mem_of_mem_filter ha)
    have hb' := List.mem_range'_1.mp (List.mem_of_mem_filter hb)
    have hbound := h.bound
    rw [Volume.ninodes] at hbound
    omega
  · intro ino hino hne
    rw [hsearched.inodes_eq] at hino
    obtain ⟨i, hi, rfl⟩ := List.mem_map.mp (List.mem_of_mem_take hino)
    obtain ⟨hrange, hfound⟩ := List.mem_filter.mp hi
    have hrange' := List.mem_range'_1.mp hrange
    have hbound := h.bound
    rw [Volume.ninodes] at hbound
    have hlt : i < 65536 := by
      by_contra hge
      refine hne ?_
      rw [show i = 65536 by omega]
    rw [Nat.mod_eq_of_lt hlt]
    refine spare_of_found (of_decide_eq_true hfound) hrange'.1 ?_ hlt
    rw [Volume.ninodes]
    omega

/-- The search finds nothing only when no inode is spare. -/
theorem not_spare_of_search (h : sNinode (Filsys.search v v.fp) ≤ 0) (hzero : sNinode v.fp = 0) (hlt : ino < 65536) :
    ¬ v.Spare ino := by
  intro hspare
  have hsearched := searched v hzero
  have hlen : (inodes (Filsys.search v v.fp)).length = (sNinode (Filsys.search v v.fp)).toNat := length_inodes _
  have hnil : inodes (Filsys.search v v.fp) = [] := List.length_eq_zero_iff.mp (by omega)
  have hrange : ino ∈ List.range' 1 (NIPB * (sIsize v.fp - (SUPERB + 1)).toNat) := by
    rw [List.mem_range'_1]
    have hbounds := hspare.1
    rw [Volume.ninodes] at hbounds
    omega
  have hmem : ino ∈ (List.range' 1 (NIPB * (sIsize v.fp - (SUPERB + 1)).toNat)).filter fun i ↦ v.Found i :=
    List.mem_filter.mpr ⟨hrange, decide_eq_true (found_of_spare hspare hlt)⟩
  have hempty := hsearched.inodes_eq
  rw [hnil, eq_comm, List.take_eq_nil_iff] at hempty
  have hall := hempty.resolve_left (by decide)
  rw [List.map_eq_nil_iff] at hall
  rw [hall] at hmem
  exact List.not_mem_nil hmem

end Spare

section Ialloc

variable {v w : Volume} {fp : Superblock} {r : Option ℕ} {fuel : ℕ}

/-- What `ialloc` does: it takes a spare inode into core, or it changes no more than the list. -/
structure Ialloced (v w : Volume) (r : Option ℕ) : Prop where
  keeps : KeepsBlocks v.fp w.fp
  disk : w.disk = v.disk
  cache : w.cache = v.cache
  list : InodeList w
  result : (∃ ino, r = some ino ∧ ROOTINO ≤ ino ∧ v.Spare ino ∧
      w.inode = (v.dinode ino).clear :: v.inode ∧ sFmod w.fp = 1) ∨
    r = none ∧ w.inode = v.inode ∧ sFmod w.fp = sFmod v.fp ∧
      (NINODE ≤ v.inode.length ∨ ∀ ino < 65536, ¬ v.Spare ino)

/-- Inode 65536 has no number, so another one has to be there instead. -/
def Volume.Numbered (v : Volume) : Prop := v.Spare 65536 → ∃ ino, ROOTINO ≤ ino ∧ ino < 65536 ∧ v.Spare ino

theorem Volume.Numbered.with_fp (h : v.Numbered) (hfp : sIsize fp = sIsize v.fp) :
    ({ v with fp } : Volume).Numbered := by
  intro hlast
  obtain ⟨ino, hroot, hlt, hspare⟩ := h ((spare_with_fp hfp 65536).mp hlast)
  exact ⟨ino, hroot, hlt, (spare_with_fp hfp ino).mpr hspare⟩

theorem Ialloced.of_with_fp (h : Ialloced { v with fp } w r) (hkeeps : KeepsTotals v.fp fp) : Ialloced v w r := by
  refine ⟨hkeeps.keepsBlocks.trans h.keeps, h.disk, h.cache, h.list, ?_⟩
  obtain ⟨ino, hr, hroot, hspare, hinode, hfmod⟩ | ⟨hr, hinode, hfmod, hnone⟩ := h.result
  · exact .inl ⟨ino, hr, hroot, (spare_with_fp hkeeps.sIsize ino).mp hspare, hinode, hfmod⟩
  · refine .inr ⟨hr, hinode, hfmod.trans hkeeps.sFmod, hnone.imp id fun hall ino hlt hspare ↦ ?_⟩
    exact hall ino hlt ((spare_with_fp hkeeps.sIsize ino).mpr hspare)

theorem iget_of_spare {ino : ℕ} (h : v.Spare ino) :
    iget v ino = if v.inode.length < NINODE then some (v.dinode ino) else none := by
  have hnone : v.inode.find? (fun ip ↦ ip.iNumber = ino) = none := by
    rw [List.find?_eq_none]
    intro ip hip
    simpa using h.2.2 ip hip
  rw [iget, hnone]

theorem enter_of_spare {ip : Inode} (h : v.Spare ip.iNumber) : v.enter ip = ip :: v.inode :=
  congrArg (ip :: ·) (List.filter_eq_self.mpr fun p hp ↦ decide_eq_true (h.2.2 p hp))

/-- The list without its last number. -/
theorem InodeList.pop (h : InodeList v) (hpos : 0 < sNinode v.fp) :
    InodeList { v with fp := setNinode v.fp (sNinode v.fp - 1) } ∧
      ∃ ino, sInode (setNinode v.fp (sNinode v.fp - 1)) (sNinode (setNinode v.fp (sNinode v.fp - 1))).toNat = ino ∧
        (ino ≠ 0 → v.Spare ino) ∧ ino ∉ inodes (setNinode v.fp (sNinode v.fp - 1)) := by
  have hle := h.le
  rw [NICINOD] at hle
  have hset : sNinode (setNinode v.fp (sNinode v.fp - 1)) = sNinode v.fp - 1 := short_setShort (by omega)
  have hall := inodes_of_pos hpos h.le
  have hnodup := h.nodup
  rw [hall] at hnodup
  have happend := List.nodup_append'.mp hnodup
  refine ⟨h.with_list (keeps_setNinode _ _) ?_ ?_ happend.1 ?_, sInode v.fp (sNinode v.fp - 1).toNat, ?_, ?_, ?_⟩
  · rw [hset]
    omega
  · rw [hset, NICINOD]
    omega
  · intro ino hino hne
    exact h.spare ino (hall ▸ List.mem_append_left _ hino) hne
  · rw [hset, sInode_setNinode]
  · intro hne
    exact h.spare _ (hall ▸ List.mem_append_right _ (List.mem_singleton_self _)) hne
  · intro hmem
    exact happend.2.2 hmem (List.mem_singleton_self _)

theorem spare_of_cons {ip : Inode} (hfp : sIsize fp = sIsize v.fp) (i : ℕ) :
    ({ v with fp, inode := ip :: v.inode } : Volume).Spare i ↔ v.Spare i ∧ i ≠ ip.iNumber := by
  have hall : ({ v with fp, inode := ip :: v.inode } : Volume).ninodes = v.ninodes := by
    rw [Volume.ninodes, Volume.ninodes]
    exact congrArg (fun n ↦ NIPB * (n - (SUPERB + 1)).toNat) hfp
  rw [Volume.Spare, Volume.Spare, hall]
  constructor
  · rintro ⟨hrange, hmode, htable⟩
    exact ⟨⟨hrange, hmode, fun p hp ↦ htable p (List.mem_cons_of_mem _ hp)⟩, (htable ip List.mem_cons_self).symm⟩
  · rintro ⟨⟨hrange, hmode, htable⟩, hne⟩
    refine ⟨hrange, hmode, fun p hp ↦ ?_⟩
    rcases List.mem_cons.mp hp with rfl | hp
    · exact hne.symm
    · exact htable p hp

def counted (fp : Superblock) : Superblock := if sTinode fp ≠ 0 then setTinode fp (sTinode fp - 1) else fp

/-- A spare inode that goes from the list into core. -/
theorem InodeList.take {ino : ℕ} (h : InodeList { v with fp }) (hkeeps : KeepsTotals v.fp fp) (hspare : v.Spare ino)
    (hmem : ino ∉ inodes fp) (hroot : ROOTINO ≤ ino) :
    Ialloced v { v with fp := setFmod (counted fp) 1, inode := (v.dinode ino).clear :: v.inode } (some ino) := by
  have hfirst := (spare_with_fp (v := v) hkeeps.sIsize ino).mpr hspare
  have htotal : sTinode fp = ({ v with fp } : Volume).spares.card := h.total
  have hpos : 0 < ({ v with fp } : Volume).spares.card := Finset.card_pos.mpr ⟨ino, mem_spares.mpr hfirst⟩
  have hcounted : counted fp = setTinode fp (sTinode fp - 1) := if_pos (by omega)
  have hsame (i : ℕ) (hi : i ≠ 412 ∧ i ≠ 422 ∧ i ≠ 423) : setFmod (counted fp) 1 i = fp i := by
    rw [hcounted]
    exact (setFmod_apply_of_ne _ _ (by omega)).trans (setShort_apply_of_apart (by omega))
  have hisize : sIsize (setFmod (counted fp) 1) = sIsize v.fp :=
    (short_congr (hsame 0 (by decide)) (hsame 1 (by decide))).trans hkeeps.sIsize
  have hninode : sNinode (setFmod (counted fp) 1) = sNinode fp :=
    short_congr (hsame 208 (by decide)) (hsame 209 (by decide))
  have hinodes : inodes (setFmod (counted fp) 1) = inodes fp := inodes_congr (fun i hi hlt ↦ hsame i (by omega)) h.le
  have hcons (i : ℕ) : ({ v with fp := setFmod (counted fp) 1, inode := (v.dinode ino).clear :: v.inode } : Volume).Spare i ↔
      v.Spare i ∧ i ≠ ino := spare_of_cons hisize i
  have herase : ({ v with fp := setFmod (counted fp) 1, inode := (v.dinode ino).clear :: v.inode } : Volume).spares =
      ({ v with fp } : Volume).spares.erase ino := by
    ext i
    rw [mem_spares, hcons, Finset.mem_erase, mem_spares, spare_with_fp hkeeps.sIsize, and_comm]
  refine ⟨fun i hi ↦ ?_, rfl, rfl, ⟨?_, ?_, ?_, ?_, ?_, ?_⟩, .inl ⟨ino, rfl, hroot, hspare, rfl, sFmod_setFmod _ 1⟩⟩
  · exact (hsame i (by omega)).trans (hkeeps i (by omega))
  · rw [hninode]
    exact h.nonneg
  · rw [hninode]
    exact h.le
  · rw [hinodes]
    exact h.nodup
  · intro other hother hne
    rw [hinodes] at hother
    rw [hcons]
    refine ⟨(spare_with_fp hkeeps.sIsize other).mp (h.spare other hother hne), ?_⟩
    rintro rfl
    exact hmem hother
  · have hvalue : (sTinode (setTinode fp (sTinode fp - 1)) : ℤ) = (sTinode fp - 1) % 65536 := ushort_setShort
    have hlt : sTinode fp < 65536 := ushort_lt fp 422
    have hfmod : sTinode (setFmod (counted fp) 1) = sTinode (setTinode fp (sTinode fp - 1)) := by
      rw [hcounted]
      exact ushort_congr (setFmod_apply_of_ne _ _ (by decide)) (setFmod_apply_of_ne _ _ (by decide))
    rw [herase, Finset.card_erase_of_mem (mem_spares.mpr hfirst), ← htotal, hfmod]
    omega
  · have hbound := h.bound
    rw [Volume.ninodes] at hbound ⊢
    have hfp : sIsize (setFmod (counted fp) 1) = sIsize fp := hisize.trans hkeeps.sIsize.symm
    rw [hfp]
    exact hbound

/-- No inode is spare, so the total was zero before. -/
theorem InodeList.outOf (h : InodeList { v with fp }) (hkeeps : KeepsTotals v.fp fp) (hnone : ∀ i, ¬ v.Spare i) :
    Ialloced v { v with fp := setTinode fp 0 } none := by
  have htotal : sTinode fp = ({ v with fp } : Volume).spares.card := h.total
  have hcard : ({ v with fp } : Volume).spares.card = 0 := by
    rw [Finset.card_eq_zero, Finset.eq_empty_iff_forall_notMem]
    intro i hi
    exact hnone i ((spare_with_fp hkeeps.sIsize i).mp (mem_spares.mp hi))
  have hbyte (i : ℕ) (hi : i < 422) : setTinode fp 0 i = fp i := setShort_apply_of_apart (.inl hi)
  have hisize : sIsize (setTinode fp 0) = sIsize fp := short_congr (hbyte 0 (by decide)) (hbyte 1 (by decide))
  have hninode : sNinode (setTinode fp 0) = sNinode fp := short_congr (hbyte 208 (by decide)) (hbyte 209 (by decide))
  have hinodes : inodes (setTinode fp 0) = inodes fp := inodes_congr (fun i hi hlt ↦ hbyte i (by omega)) h.le
  have hspare : ∀ i, ({ v with fp := setTinode fp 0 } : Volume).Spare i ↔ ({ v with fp } : Volume).Spare i :=
    @spare_with_fp { v with fp } (setTinode fp 0) hisize
  refine ⟨fun i hi ↦ ?_, rfl, rfl, ⟨?_, ?_, ?_, ?_, ?_, ?_⟩, .inr ⟨rfl, rfl, ?_, .inr fun i _ ↦ hnone i⟩⟩
  · exact (setShort_apply_of_apart (by omega)).trans (hkeeps i (by omega))
  · rw [hninode]
    exact h.nonneg
  · rw [hninode]
    exact h.le
  · rw [hinodes]
    exact h.nodup
  · intro ino hino hne
    rw [hinodes] at hino
    exact (hspare ino).mpr (h.spare ino hino hne)
  · have hvalue : (sTinode (setTinode fp 0) : ℤ) = 0 % 65536 := ushort_setShort
    have hzero : sTinode (setTinode fp 0) = 0 := by omega
    rw [spares_congr hspare, hcard]
    exact hzero
  · have hbound := h.bound
    rw [Volume.ninodes] at hbound ⊢
    rw [hisize]
    exact hbound
  · exact (hbyte 412 (by decide)).trans hkeeps.sFmod

/-- Every call of `ialloc` that returns: the induction is on the rounds of its loop. -/
theorem iallocLoop_spec (h : InodeList v) (hnumbered : v.Numbered) (hrun : iallocLoop fuel v = some (w, r)) :
    Ialloced v w r := by
  induction fuel generalizing v with
  | zero => exact absurd hrun.symm (Option.some_ne_none _)
  | succ fuel ih =>
    rw [iallocLoop] at hrun
    by_cases hpos : 0 < sNinode v.fp
    · rw [if_pos hpos] at hrun
      obtain ⟨hpop, ino, hino, hspare, hmem⟩ := h.pop hpos
      have hkeeps := keeps_setNinode v.fp (sNinode v.fp - 1)
      dsimp only at hrun
      rw [hino] at hrun
      generalize setNinode v.fp (sNinode v.fp - 1) = fp at hrun hpop hkeeps hmem
      by_cases hroot : ino < ROOTINO
      · rw [if_pos hroot] at hrun
        exact (ih hpop (hnumbered.with_fp hkeeps.sIsize) hrun).of_with_fp hkeeps
      · rw [if_neg hroot] at hrun
        rw [ROOTINO, not_lt] at hroot
        have hspare := hspare (by omega)
        have hspare' := (spare_with_fp (v := v) hkeeps.sIsize ino).mpr hspare
        have hmode : (({ v with fp } : Volume).dinode ino).iMode = 0 := hspare'.2.1
        rw [iget_of_spare hspare'] at hrun
        by_cases hroom : v.inode.length < NINODE
        · rw [if_pos hroom] at hrun
          dsimp only at hrun
          rw [if_pos hmode] at hrun
          obtain ⟨rfl, rfl⟩ := Prod.mk.inj (Option.some.inj hrun)
          have henter : v.enter (v.dinode ino).clear = (v.dinode ino).clear :: v.inode := enter_of_spare hspare
          have htake := hpop.take hkeeps hspare hmem hroot
          rw [← henter] at htake
          exact htake
        · rw [if_neg hroom] at hrun
          obtain ⟨rfl, rfl⟩ := Prod.mk.inj (Option.some.inj hrun)
          exact ⟨hkeeps.keepsBlocks, rfl, rfl, hpop, .inr ⟨rfl, rfl, hkeeps.sFmod, .inl (not_lt.mp hroom)⟩⟩
    · rw [if_neg hpos] at hrun
      have hzero : sNinode v.fp = 0 := le_antisymm (not_lt.mp hpos) h.nonneg
      have hsearch := h.search hzero
      have hkeeps := (searched v hzero).keeps
      have hnone (ino : ℕ) (hle : sNinode (search v v.fp) ≤ 0) (hlt : ino < 65536) : ¬ v.Spare ino :=
        not_spare_of_search hle hzero hlt
      dsimp only at hrun
      generalize search v v.fp = fp at hrun hsearch hkeeps hnone
      by_cases hfound : 0 < sNinode fp
      · rw [if_pos hfound] at hrun
        exact (ih hsearch (hnumbered.with_fp hkeeps.sIsize) hrun).of_with_fp hkeeps
      · rw [if_neg hfound] at hrun
        obtain ⟨rfl, rfl⟩ := Prod.mk.inj (Option.some.inj hrun)
        refine hsearch.outOf hkeeps fun i hi ↦ ?_
        have hle : i ≤ 65536 := hi.1.2.trans h.bound
        rcases hle.lt_or_eq with hlt | rfl
        · exact hnone i (not_lt.mp hfound) hlt hi
        · obtain ⟨ino, -, hlt, hother⟩ := hnumbered hi
          exact hnone ino (not_lt.mp hfound) hlt hother

theorem iallocLoop_of_named (h : InodeList v) (hpos : 0 < sNinode v.fp) {ino : ℕ}
    (hino : sInode (setNinode v.fp (sNinode v.fp - 1)) (sNinode (setNinode v.fp (sNinode v.fp - 1))).toNat = ino)
    (hroot : ROOTINO ≤ ino) : ∃ w r, iallocLoop 1 v = some (w, r) := by
  obtain ⟨hpop, ino', hino', hspare, -⟩ := h.pop hpos
  obtain rfl : ino' = ino := hino'.symm.trans hino
  have hne : ino' ≠ 0 := by
    rw [ROOTINO] at hroot
    omega
  have hspare' := (spare_with_fp (v := v) (keeps_setNinode v.fp (sNinode v.fp - 1)).sIsize ino').mpr (hspare hne)
  have higet := iget_of_spare hspare'
  rw [iallocLoop, if_pos hpos]
  dsimp only
  rw [hino, if_neg (not_lt.mpr hroot), higet]
  by_cases hroom : v.inode.length < NINODE
  · rw [if_pos hroom]
    exact ⟨_, _, if_pos hspare'.2.1⟩
  · rw [if_neg hroom]
    exact ⟨_, _, rfl⟩

theorem last_mem_inodes (h : 0 < sNinode fp) (hle : sNinode fp ≤ NICINOD) :
    sInode (setNinode fp (sNinode fp - 1)) (sNinode (setNinode fp (sNinode fp - 1))).toNat ∈ inodes fp := by
  have hle' := hle
  rw [NICINOD] at hle'
  have hset : sNinode (setNinode fp (sNinode fp - 1)) = sNinode fp - 1 := short_setShort (by omega)
  rw [sInode_setNinode, hset, inodes_of_pos h hle]
  exact List.mem_append_right _ (List.mem_singleton_self _)

/-- A search names no inode below the root when the first one is allocated. -/
theorem rootino_le_of_search (hzero : sNinode v.fp = 0) (hfirst : ¬ v.Spare 1) (hbound : v.ninodes < 65536) {ino : ℕ}
    (hino : ino ∈ inodes (search v v.fp)) : ROOTINO ≤ ino := by
  rw [(searched v hzero).inodes_eq] at hino
  obtain ⟨i, hi, rfl⟩ := List.mem_map.mp (List.mem_of_mem_take hino)
  obtain ⟨hrange, hfound⟩ := List.mem_filter.mp hi
  have hrange := List.mem_range'_1.mp hrange
  have hle : i ≤ v.ninodes := by
    rw [Volume.ninodes]
    omega
  rw [Nat.mod_eq_of_lt (hle.trans_lt hbound), ROOTINO]
  have hspare := spare_of_found (of_decide_eq_true hfound) hrange.1 hle (hle.trans_lt hbound)
  have hne : i ≠ 1 := fun heq ↦ hfirst (heq ▸ hspare)
  omega

theorem iallocLoop_of_search (hzero : sNinode v.fp = 0) (hsearch : search v v.fp = fp) (hfound : 0 < sNinode fp)
    (hrun : iallocLoop fuel { v with fp } = some (w, r)) : iallocLoop (fuel + 1) v = some (w, r) := by
  rw [iallocLoop, if_neg (by omega), hsearch]
  exact (if_pos hfound).trans hrun

theorem iallocLoop_of_small (hpos : 0 < sNinode v.fp) (hfp : setNinode v.fp (sNinode v.fp - 1) = fp)
    (hroot : sInode fp (sNinode fp).toNat < ROOTINO) (hrun : iallocLoop fuel { v with fp } = some (w, r)) :
    iallocLoop (fuel + 1) v = some (w, r) := by
  rw [iallocLoop, if_pos hpos, hfp]
  exact (if_pos hroot).trans hrun

/-- `ialloc` returns when it is sure to pass no search over: the induction is on the list. -/
theorem iallocLoop_returns (h : InodeList v) (hfirst : ¬ v.Spare 1) (hbound : v.ninodes < 65536) :
    ∃ fuel w r, iallocLoop fuel v = some (w, r) := by
  obtain ⟨k, hk⟩ : ∃ k, (sNinode v.fp).toNat = k := ⟨_, rfl⟩
  induction k generalizing v with
  | zero =>
    have hzero : sNinode v.fp = 0 := by
      have hnonneg := h.nonneg
      omega
    by_cases hfound : 0 < sNinode (search v v.fp)
    · have hsearch := h.search hzero
      have hroot := rootino_le_of_search hzero hfirst hbound (last_mem_inodes hfound hsearch.le)
      obtain ⟨w, r, hrun⟩ := iallocLoop_of_named hsearch hfound rfl hroot
      exact ⟨2, w, r, iallocLoop_of_search hzero rfl hfound hrun⟩
    · refine ⟨1, { v with fp := setTinode (search v v.fp) 0 }, none, ?_⟩
      rw [iallocLoop, if_neg (by omega)]
      exact if_neg hfound
  | succ k ih =>
    have hpos : 0 < sNinode v.fp := by omega
    have hkeeps := keeps_setNinode v.fp (sNinode v.fp - 1)
    by_cases hroot : sInode (setNinode v.fp (sNinode v.fp - 1)) (sNinode (setNinode v.fp (sNinode v.fp - 1))).toNat <
        ROOTINO
    · have hle := h.le
      rw [NICINOD] at hle
      have hset : sNinode (setNinode v.fp (sNinode v.fp - 1)) = sNinode v.fp - 1 := short_setShort (by omega)
      obtain ⟨fuel, w, r, hrun⟩ := ih (h.pop hpos).1 (fun hspare ↦ hfirst ((spare_with_fp hkeeps.sIsize 1).mp hspare))
        (by
          rw [Volume.ninodes, hkeeps.sIsize]
          exact hbound)
        (by
          rw [hset]
          omega)
      exact ⟨fuel + 1, w, r, iallocLoop_of_small hpos rfl hroot hrun⟩
    · obtain ⟨w, r, hrun⟩ := iallocLoop_of_named h hpos rfl (not_lt.mp hroot)
      exact ⟨1, w, r, hrun⟩

end Ialloc

section Ifree

variable {v w : Volume} {ino : ℕ}

/-- An inode is allocated when it is in the table on the disk and not spare. -/
def Volume.Allocated (v : Volume) (i : ℕ) : Prop := (1 ≤ i ∧ i ≤ v.ninodes) ∧ ¬ v.Spare i

/-- What `ifree` does to the super block. -/
structure Ifreed (fp fp' : Superblock) (ino : ℕ) : Prop where
  keeps : KeepsBlocks fp fp'
  isize : sIsize fp' = sIsize fp
  nonneg : 0 ≤ sNinode fp'
  le : sNinode fp' ≤ NICINOD
  inodes_eq : inodes fp' = inodes fp ∨ inodes fp' = inodes fp ++ [ino]
  total : (sTinode fp' : ℤ) = (sTinode fp + 1) % 65536
  fmod : sFmod fp' = 1 ∨ NICINOD ≤ sNinode fp ∧ sFmod fp' = sFmod fp

theorem ifree_of_full (hmark : getfs v.fp = v.fp) (hlock : sIlock v.fp = 0) (h : NICINOD ≤ sNinode v.fp) :
    ifree v ino = { v with fp := setTinode v.fp (sTinode v.fp + 1) } := by
  have hninode : short (setShort v.fp 422 (sTinode v.fp + 1)) 208 = sNinode v.fp := short_setShort_of_apart (by decide)
  have hilock : sIlock (setTinode v.fp (sTinode v.fp + 1)) = 0 := (setShort_apply_of_apart (by decide)).trans hlock
  rw [ifree, hmark, if_neg (not_not.mpr hilock), if_pos (h.trans hninode.ge)]

theorem ifree_of_room (hmark : getfs v.fp = v.fp) (hlock : sIlock v.fp = 0) (h : sNinode v.fp < NICINOD) :
    ifree v ino =
      { v with
        fp := setFmod (setNinode (setInode (setTinode v.fp (sTinode v.fp + 1)) (sNinode v.fp).toNat ino)
          (sNinode v.fp + 1)) 1 } := by
  have hninode : short (setShort v.fp 422 (sTinode v.fp + 1)) 208 = sNinode v.fp := short_setShort_of_apart (by decide)
  have hilock : sIlock (setTinode v.fp (sTinode v.fp + 1)) = 0 := (setShort_apply_of_apart (by decide)).trans hlock
  have hlt : ¬ NICINOD ≤ sNinode (setTinode v.fp (sTinode v.fp + 1)) := not_le.mpr (hninode.trans_lt h)
  rw [ifree, hmark, if_neg (not_not.mpr hilock), if_neg hlt]
  exact congrArg (fun n ↦ { v with
    fp := setFmod (setNinode (setInode (setTinode v.fp (sTinode v.fp + 1)) n.toNat ino) (n + 1)) 1 }) hninode

/-- One more number on the list, after the total has changed. -/
theorem Ifreed.push {fp fp' next : Superblock} (hbyte : ∀ i < 422, fp' i = fp i)
    (htotal : (sTinode fp' : ℤ) = (sTinode fp + 1) % 65536) (hnonneg : 0 ≤ sNinode fp') (hlt : sNinode fp' < NICINOD)
    (hino : ino < 65536) (hnext : setNinode (setInode fp' (sNinode fp').toNat ino) (sNinode fp' + 1) = next) :
    Ifreed fp (setFmod next 1) ino := by
  have hlt' := hlt
  rw [NICINOD] at hlt'
  have hlist : KeepsTotals fp' next := by
    rw [← hnext]
    exact (keeps_setInode fp' (by omega) _).trans (keeps_setNinode _ _)
  have hset : sNinode next = sNinode fp' + 1 := by
    rw [← hnext]
    exact short_setShort (by omega)
  have hpush : inodes next = inodes fp' ++ [ino] := by
    rw [← hnext]
    exact inodes_push hnonneg hlt hino
  have hbounds : 0 ≤ sNinode next ∧ sNinode next ≤ NICINOD := by
    rw [hset, NICINOD]
    omega
  have hfmod (i : ℕ) (hi : i ≠ 412) : setFmod next 1 i = next i := setFmod_apply_of_ne _ _ hi
  have hninode : sNinode (setFmod next 1) = sNinode next := short_congr (hfmod 208 (by decide)) (hfmod 209 (by decide))
  refine ⟨?_, ?_, ?_, ?_, .inr ?_, ?_, .inl (sFmod_setFmod _ 1)⟩
  · exact fun i hi ↦ ((hfmod i (by omega)).trans (hlist.keepsBlocks i hi)).trans (hbyte i (by omega))
  · have hsame : sIsize (setFmod next 1) = sIsize next := short_congr (hfmod 0 (by decide)) (hfmod 1 (by decide))
    exact (hsame.trans hlist.sIsize).trans (short_congr (hbyte 0 (by decide)) (hbyte 1 (by decide)))
  · exact hbounds.1.trans hninode.ge
  · exact hninode.le.trans hbounds.2
  · have hinodes : inodes fp' = inodes fp := by
      refine inodes_congr (fun i _ hlt ↦ hbyte i (by omega)) ?_
      have hsame : sNinode fp' = sNinode fp := short_congr (hbyte 208 (by decide)) (hbyte 209 (by decide))
      exact hsame.ge.trans hlt.le
    rw [← hinodes, ← hpush]
    exact inodes_congr (fun i _ hlt ↦ hfmod i (by omega)) hbounds.2
  · have hsame : sTinode (setFmod next 1) = sTinode next := ushort_congr (hfmod 422 (by decide)) (hfmod 423 (by decide))
    rw [hsame, hlist.sTinode]
    exact htotal

theorem ifree_spec (hmark : getfs v.fp = v.fp) (hlock : sIlock v.fp = 0) (hnonneg : 0 ≤ sNinode v.fp)
    (hle : sNinode v.fp ≤ NICINOD) (hino : ino < 65536) :
    ∃ fp, ifree v ino = { v with fp } ∧ Ifreed v.fp fp ino := by
  have hbyte (i : ℕ) (hi : i < 422) : setTinode v.fp (sTinode v.fp + 1) i = v.fp i :=
    setShort_apply_of_apart (.inl hi)
  have hvalue : (sTinode (setTinode v.fp (sTinode v.fp + 1)) : ℤ) = (sTinode v.fp + 1) % 65536 := ushort_setShort
  have hninode : sNinode (setTinode v.fp (sTinode v.fp + 1)) = sNinode v.fp :=
    short_congr (hbyte 208 (by decide)) (hbyte 209 (by decide))
  by_cases hfull : NICINOD ≤ sNinode v.fp
  · have hinodes : inodes (setTinode v.fp (sTinode v.fp + 1)) = inodes v.fp :=
      inodes_congr (fun i _ hlt ↦ hbyte i (by omega)) hle
    have hkeeps : KeepsBlocks v.fp (setTinode v.fp (sTinode v.fp + 1)) := fun i hi ↦ hbyte i (by omega)
    have hisize : sIsize (setTinode v.fp (sTinode v.fp + 1)) = sIsize v.fp :=
      short_congr (hbyte 0 (by decide)) (hbyte 1 (by decide))
    refine ⟨_, ifree_of_full hmark hlock hfull, hkeeps, hisize, ?_, ?_, .inl hinodes, hvalue, .inr ⟨hfull, ?_⟩⟩
    · exact hnonneg.trans hninode.ge
    · exact hninode.le.trans hle
    · exact hbyte 412 (by decide)
  · refine ⟨_, ifree_of_room hmark hlock (not_le.mp hfull), ?_⟩
    rw [← hninode]
    exact .push hbyte hvalue (hnonneg.trans hninode.ge) (hninode.trans_lt (not_le.mp hfull)) hino rfl

end Ifree

end S8000.Filsys
