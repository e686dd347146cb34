import S8000.Filsys.Update
import S8000.Foundation.Probing
import Mathlib.Data.Nat.ModEq
import Mathlib.Order.Interval.Finset.Nat

namespace S8000.Filsys

open Foundation Foundation.Bytes Foundation.Buffer

structure Flparams where
  m : ℕ
  n : ℕ

def V7FS_MIN_FS_SIZE : ℕ := 5
def V7FS_MAX_FS_SIZE : ℕ := 16777215
def V7FS_MIN_ITABLE_SIZE : ℕ := 1
def V7FS_MAX_ITABLE_SIZE : ℕ := 8192
def V7FS_MAXFN : ℕ := 500
def IFREG : ℤ := 32768
def IFDIR : ℤ := 16384

section FreeList

def adr (n m : ℕ) : List ℕ := (Probing.order n m).map (· + 1)

/-- `d` goes up to the next multiple of `n`. -/
def roundUp (n : ℕ) : ℕ → ℕ → ℕ
  | 0, d => d
  | fuel + 1, d => if d % n ≠ 0 then roundUp n fuel (d + 1) else d

def freeInRange (v : Volume) (f : ℤ) : Volume := if f < sFsize v.fp ∧ sIsize v.fp ≤ f then free v f else v

/-- The loop over `d`, which is `n` times the number of rows to come. -/
def freeRows (adr : List ℕ) (n : ℕ) : ℕ → Volume → Volume
  | 0, v => v
  | k + 1, v => freeRows adr n k (adr.foldl (fun (w : Volume) (a : ℕ) ↦ freeInRange w (((k + 1) * n : ℕ) - a)) v)

def initfreelist (v : Volume) (n m : ℕ) : Volume :=
  freeRows (adr n m) n (roundUp n n (sFsize v.fp - 1).toNat / n) v

end FreeList

section Code

def bwrite (v : Volume) (bno : ℤ) (c : Buffer) : Volume :=
  { v with disk := Function.update v.disk bno c, cache := Function.update v.cache bno none }

def cleared : Buffer := fun _ ↦ 0

def rootDirectory : Buffer := put (put cleared 0 [0, 2, 0x2e]) 16 [0, 2, 0x2e, 0x2e]

/-- The bad block file and the root directory. -/
def firstInodes (uid gid time rootdirblkno : ℤ) : Buffer :=
  let times (b : Buffer) (off : ℕ) : Buffer := setLong (setLong (setLong b (off + 52) time) (off + 56) time) (off + 60) time
  let bad := times (setShort cleared 0 IFREG) 0
  let owner := setShort (setShort (setShort bad 66 2) 68 uid) 70 gid
  let addr := put (setLong owner 72 32) 76
    [BitVec.ofInt 8 (rootdirblkno / 65536), BitVec.ofInt 8 (rootdirblkno / 256), BitVec.ofInt 8 rootdirblkno]
  setShort (times addr 64) 64 (IFDIR + 511)

def inodeBlock (first : Buffer) (v : Volume) (iblk : ℕ) : Volume :=
  let added := setTinode v.fp (sTinode v.fp + NIPB)
  let fp := if iblk = 0 then setTinode added (sTinode added - 2) else added
  bwrite { v with fp } (iblk + 2) (if iblk = 0 then first else cleared)

/-- Zeros in the part of the table of free blocks that is not in use. -/
def clearTail (fp : Superblock) : Superblock :=
  (List.range' (sNfree fp).toNat (50 - (sNfree fp).toNat)).foldl (fun fp i ↦ setFree fp i 0) fp

def mkfsSuper (fssize isize n m : ℕ) (time : ℤ) : Superblock :=
  let sizes := setFsize (setIsize cleared (isize + 2)) fssize
  setFmod (setTime (setTinode (setTfree (setM (setN sizes n) m) 0) 0) time) 1

/-- The number of blocks for inodes when none is given. -/
def defaultIsize (fssize isize : ℕ) : ℕ :=
  if isize = 0 then min (max (fssize / 25) 1) (65500 / NIPB) else isize

def Flparams.fn (flparams : Flparams) : ℕ :=
  if flparams.n = 0 ∨ V7FS_MAXFN ≤ flparams.n then V7FS_MAXFN else flparams.n

def Flparams.fm (flparams : Flparams) : ℕ :=
  if flparams.m = 0 ∨ flparams.fn < flparams.m then 3 else flparams.m

/-- The root directory, the table of inodes and the super block, after the free list. -/
def writeRoot (isize : ℕ) (uid gid time : ℤ) : Volume × Option ℤ → Option (Volume × ℤ)
  | (_, none) => none
  | (v, some rootdirblkno) =>
    let first := firstInodes uid gid time rootdirblkno
    let w := (List.range isize).foldl (inodeBlock first) (bwrite v rootdirblkno rootDirectory)
    some (update { w with fp := clearTail w.fp } time, rootdirblkno)

/-- The file system that `v7fs_mkfs` writes on a disk, and the block of its root directory. -/
def mkfs (fssize isize : ℕ) (flparams : Flparams) (uid gid time : ℤ) (disk : ℤ → Buffer) : Option (Volume × ℤ) :=
  if fssize < V7FS_MIN_FS_SIZE ∨ V7FS_MAX_FS_SIZE < fssize then none
  else
    let isize := defaultIsize fssize isize
    if isize < V7FS_MIN_ITABLE_SIZE ∨ V7FS_MAX_ITABLE_SIZE < isize ∨ fssize - 4 < isize then none
    else
      let fp := mkfsSuper fssize isize flparams.fn flparams.fm time
      let v : Volume := { fp, disk, cache := fun _ ↦ none, inode := [] }
      writeRoot isize uid gid time (alloc (initfreelist v flparams.fn flparams.fm))

end Code

section Numbers

variable {n m k : ℕ} {f : ℤ}

theorem roundUp_eq {d e fuel : ℕ} (hfuel : e ≤ fuel) (he : e < n) (hdvd : n ∣ d + e) : roundUp n fuel d = d + e := by
  induction e generalizing d fuel with
  | zero =>
    have hzero : d % n = 0 := Nat.mod_eq_zero_of_dvd hdvd
    cases fuel with
    | zero => rfl
    | succ fuel => exact if_neg (not_not.mpr hzero)
  | succ e ih =>
    obtain ⟨fuel, rfl⟩ := Nat.exists_eq_add_of_le' (Nat.one_le_of_lt hfuel)
    have hne : d % n ≠ 0 := by
      intro hzero
      have hrest : n ∣ e + 1 := (Nat.dvd_add_right (Nat.dvd_of_mod_eq_zero hzero)).mp hdvd
      exact absurd (Nat.le_of_dvd (Nat.succ_pos e) hrest) (not_le.mpr he)
    rw [roundUp, if_pos hne, ih (Nat.le_of_succ_le_succ hfuel) (by omega)]
    · omega
    · rwa [Nat.add_assoc, Nat.add_comm 1 e]

/-- The first multiple of `n` from `d` on. -/
theorem roundUp_spec (hn : 0 < n) (d : ℕ) :
    n ∣ roundUp n n d ∧ d ≤ roundUp n n d ∧ roundUp n n d < d + n := by
  have hmod := Nat.mod_lt d hn
  have hsplit := Nat.div_add_mod d n
  by_cases hzero : d % n = 0
  · have heq := roundUp_eq (Nat.zero_le n) hn (Nat.dvd_of_mod_eq_zero hzero)
    rw [heq]
    exact ⟨Nat.dvd_of_mod_eq_zero hzero, le_rfl, by omega⟩
  · have hdvd : n ∣ d + (n - d % n) := by
      refine ⟨d / n + 1, ?_⟩
      rw [Nat.mul_add, Nat.mul_one]
      omega
    have heq := roundUp_eq (show n - d % n ≤ n by omega) (by omega) hdvd
    rw [heq]
    exact ⟨hdvd, by omega, by omega⟩

/-- The numbers of all rows, in the order of the calls of `free`. -/
def numbers (adr : List ℕ) (n : ℕ) : ℕ → List ℤ
  | 0 => []
  | k + 1 => adr.map (fun a : ℕ ↦ (((k + 1) * n : ℕ) : ℤ) - a) ++ numbers adr n k

theorem freeRows_eq (adr : List ℕ) (n k : ℕ) (v : Volume) :
    freeRows adr n k v = (numbers adr n k).foldl freeInRange v := by
  induction k generalizing v with
  | zero => rfl
  | succ k ih => rw [freeRows, ih, numbers, List.foldl_append, List.foldl_map]

theorem mem_adr (hn : 0 < n) (m : ℕ) {a : ℕ} : a ∈ adr n m ↔ 1 ≤ a ∧ a ≤ n := by
  rw [adr, List.mem_map]
  constructor
  · rintro ⟨i, hi, rfl⟩
    have hlt := (Probing.mem_order hn m).mp hi
    omega
  · intro h
    exact ⟨a - 1, (Probing.mem_order hn m).mpr (by omega), by omega⟩

theorem mem_numbers (hn : 0 < n) (m k : ℕ) (f : ℤ) : f ∈ numbers (adr n m) n k ↔ 0 ≤ f ∧ f < (k * n : ℕ) := by
  induction k with
  | zero =>
    rw [numbers, Nat.zero_mul]
    simp
  | succ k ih =>
    have hnext : (((k + 1) * n : ℕ) : ℤ) = (k * n : ℕ) + n := by
      rw [Nat.succ_mul]
      push_cast
      rfl
    have hnonneg : (0 : ℤ) ≤ (k * n : ℕ) := Int.natCast_nonneg _
    rw [numbers, List.mem_append, ih, List.mem_map, hnext]
    constructor
    · rintro (⟨a, ha, rfl⟩ | h)
      · have hbounds := (mem_adr hn m).mp ha
        omega
      · omega
    · intro h
      by_cases hlow : f < (k * n : ℕ)
      · exact .inr ⟨h.1, hlow⟩
      · exact .inl ⟨((k * n : ℕ) + n - f).toNat, (mem_adr hn m).mpr (by omega), by omega⟩

theorem nodup_numbers (hn : 0 < n) (m k : ℕ) : (numbers (adr n m) n k).Nodup := by
  induction k with
  | zero => exact List.nodup_nil
  | succ k ih =>
    refine List.nodup_append'.mpr ⟨?_, ih, ?_⟩
    · refine List.Nodup.map (fun a b heq ↦ ?_) ((Probing.nodup_order hn m).map (Nat.succ_injective))
      have hcast : (a : ℤ) = b := sub_right_injective heq
      exact Int.ofNat_inj.mp hcast
    · intro f hf hmem
      obtain ⟨a, ha, rfl⟩ := List.mem_map.mp hf
      have hbounds := (mem_adr hn m).mp ha
      have hrange := ((mem_numbers hn m k _).mp hmem).2
      rw [Nat.succ_mul] at hrange
      push_cast at hrange
      omega

end Numbers

section Free

variable {v w : Volume} {stack : List ℤ} {f isize fsize : ℤ}

/-- Blocks go on the free list one after the other. -/
structure Freeing (isize fsize : ℤ) (v w : Volume) (stack : List ℤ) : Prop where
  list : FreeList w.Clean w.disk w.fp stack
  keeps : KeepsInodes v.fp w.fp
  inode : w.inode = v.inode
  frame : ∀ c, ¬ (isize ≤ c ∧ c < fsize) → w.disk c = v.disk c ∧ w.cache c = v.cache c

theorem Freeing.freeInRange (h : Freeing isize fsize v w stack) (hisize : sIsize v.fp = isize)
    (hfsize : sFsize v.fp = fsize) (hpos : 0 < isize) (hninode : sNinode v.fp ≤ NICINOD) (hmem : f ∉ stack) :
    Freeing isize fsize v (freeInRange w f) (if isize ≤ f ∧ f < fsize then stack ++ [f] else stack) := by
  have hisize' : sIsize w.fp = isize := h.keeps.sIsize.trans hisize
  have hfsize' : sFsize w.fp = fsize := h.keeps.sFsize.trans hfsize
  have hninode' : sNinode w.fp = sNinode v.fp := short_congr (h.keeps 208 (by decide)) (h.keeps 209 (by decide))
  unfold Filsys.freeInRange
  rw [hisize', hfsize']
  by_cases hrange : isize ≤ f ∧ f < fsize
  · rw [if_pos hrange.symm, if_pos hrange]
    have hgood : ¬ badblock w.fp f := by
      rw [badblock, hisize', hfsize']
      omega
    obtain ⟨hlist, hkeeps, -, hinode, hframe⟩ :=
      free_push h.list (hisize'.symm ▸ hpos) (hninode'.trans_le hninode) hgood hmem
    refine ⟨hlist, h.keeps.trans hkeeps, hinode.trans h.inode, fun c hc ↦ ?_⟩
    have hne : c ≠ f := fun heq ↦ hc (heq ▸ hrange)
    obtain ⟨hdisk, hcache⟩ := hframe c hne
    obtain ⟨hdisk', hcache'⟩ := h.frame c hc
    exact ⟨hdisk.trans hdisk', hcache.trans hcache'⟩
  · rw [if_neg (fun hswap ↦ hrange hswap.symm), if_neg hrange]
    exact h

theorem Freeing.foldl {l : List ℤ} (h : Freeing isize fsize v w stack) (hisize : sIsize v.fp = isize)
    (hfsize : sFsize v.fp = fsize) (hpos : 0 < isize) (hninode : sNinode v.fp ≤ NICINOD) (hnodup : l.Nodup)
    (hapart : ∀ f ∈ l, f ∉ stack) :
    Freeing isize fsize v (l.foldl Filsys.freeInRange w) (stack ++ l.filter fun f ↦ isize ≤ f ∧ f < fsize) := by
  induction l generalizing w stack with
  | nil =>
    rw [List.filter_nil, List.append_nil]
    exact h
  | cons f l ih =>
    obtain ⟨hf, hnodup⟩ := List.nodup_cons.mp hnodup
    have hstep := h.freeInRange hisize hfsize hpos hninode (hapart f List.mem_cons_self)
    have hrest (g : ℤ) (hg : g ∈ l) : g ∉ (if isize ≤ f ∧ f < fsize then stack ++ [f] else stack) := by
      have hold := hapart g (List.mem_cons_of_mem _ hg)
      split
      · rw [List.mem_append, List.mem_singleton, not_or]
        exact ⟨hold, fun heq ↦ hf (heq ▸ hg)⟩
      · exact hold
    have hall := ih hstep hnodup hrest
    rw [List.foldl_cons, List.filter_cons]
    by_cases hrange : isize ≤ f ∧ f < fsize
    · rw [if_pos hrange] at hall
      rw [if_pos (decide_eq_true hrange), List.append_cons]
      exact hall
    · rw [if_neg hrange] at hall
      rw [if_neg (by simpa using hrange)]
      exact hall

/-- The block that no row reaches: the last one, when the rows end with it. -/
def lost (fsize n : ℕ) : List ℤ := if n ∣ fsize - 1 then [((fsize - 1 : ℕ) : ℤ)] else []

theorem lt_roundUp_iff {n fsize : ℕ} (hn : 0 < n) (hf : 0 ≤ f) (hlt : f < fsize) :
    0 ≤ f ∧ f < (roundUp n n (fsize - 1) : ℕ) ↔ f ∉ lost fsize n := by
  unfold lost
  by_cases hlast : n ∣ fsize - 1
  · have heq : roundUp n n (fsize - 1) = fsize - 1 := roundUp_eq (Nat.zero_le n) hn hlast
    rw [if_pos hlast, heq, List.mem_singleton]
    omega
  · obtain ⟨hdvd, hle, -⟩ := roundUp_spec hn (fsize - 1)
    have hne : roundUp n n (fsize - 1) ≠ fsize - 1 := fun heq ↦ hlast (heq ▸ hdvd)
    rw [if_neg hlast]
    refine iff_of_true ⟨hf, ?_⟩ (List.not_mem_nil)
    omega

/-- What `v7fs_initfreelist` puts on the free list. -/
theorem initfreelist_spec {n fssize : ℕ} (hn : 0 < n) (m : ℕ) (hlist : FreeList v.Clean v.disk v.fp [])
    (hisize : sIsize v.fp = isize) (hfsize : sFsize v.fp = fssize) (hpos : 0 < isize) (hsize : 0 < fssize)
    (hninode : sNinode v.fp ≤ NICINOD) :
    ∃ stack, Freeing isize fssize v (initfreelist v n m) stack ∧
      ∀ f, f ∈ stack ↔ (isize ≤ f ∧ f < fssize) ∧ f ∉ lost fssize n := by
  have hstart : Freeing isize fssize v v [] := ⟨hlist, fun _ _ ↦ rfl, rfl, fun _ _ ↦ ⟨rfl, rfl⟩⟩
  have hd : (sFsize v.fp - 1).toNat = fssize - 1 := by
    rw [hfsize]
    omega
  rw [initfreelist, freeRows_eq, hd]
  have hall := hstart.foldl hisize hfsize hpos hninode (nodup_numbers hn m (roundUp n n (fssize - 1) / n)) (by simp)
  refine ⟨_, hall, fun f ↦ ?_⟩
  rw [List.nil_append, List.mem_filter, mem_numbers hn, Nat.div_mul_cancel (roundUp_spec hn _).1, decide_eq_true_iff,
    and_comm]
  exact and_congr_right fun hf ↦ lt_roundUp_iff hn (hpos.le.trans hf.1) hf.2

end Free

section Super

variable {fssize isize n m : ℕ} {time : ℤ}

theorem mkfsSuper_apply (fssize isize n m : ℕ) (time : ℤ) {i : ℕ} (h : 6 ≤ i ∧ i < 412 ∨ i = 413) :
    mkfsSuper fssize isize n m time i = 0 := by
  unfold mkfsSuper
  rw [setFmod_apply_of_ne _ _ (by omega)]
  refine (setLong_apply_of_apart (by omega)).trans ((setShort_apply_of_apart (by omega)).trans ?_)
  refine (setLong_apply_of_apart (by omega)).trans ((setShort_apply_of_apart (by omega)).trans ?_)
  refine (setShort_apply_of_apart (by omega)).trans ((setLong_apply_of_apart (by omega)).trans ?_)
  exact setShort_apply_of_apart (by omega)

theorem sNfree_mkfsSuper : sNfree (mkfsSuper fssize isize n m time) = 0 :=
  short_of_zero (mkfsSuper_apply _ _ _ _ _ (by decide)) (mkfsSuper_apply _ _ _ _ _ (by decide))

theorem sNinode_mkfsSuper : sNinode (mkfsSuper fssize isize n m time) = 0 :=
  short_of_zero (mkfsSuper_apply _ _ _ _ _ (by decide)) (mkfsSuper_apply _ _ _ _ _ (by decide))

theorem mkfsSuper_low {i : ℕ} (h : i < 6) :
    mkfsSuper fssize isize n m time i = setFsize (setIsize cleared (isize + 2)) fssize i := by
  unfold mkfsSuper
  rw [setFmod_apply_of_ne _ _ (by omega)]
  refine (setLong_apply_of_apart (by omega)).trans ((setShort_apply_of_apart (by omega)).trans ?_)
  refine (setLong_apply_of_apart (by omega)).trans ((setShort_apply_of_apart (by omega)).trans ?_)
  exact setShort_apply_of_apart (by omega)

theorem sIsize_mkfsSuper (h : isize ≤ 8192) : sIsize (mkfsSuper fssize isize n m time) = isize + 2 := by
  have hset : sIsize (setIsize cleared (isize + 2)) = isize + 2 := short_setShort (by omega)
  have hkept : sIsize (setFsize (setIsize cleared (isize + 2)) fssize) = sIsize (setIsize cleared (isize + 2)) :=
    short_setLong_of_apart (by decide)
  rw [← hset, ← hkept]
  exact short_congr (mkfsSuper_low (by decide)) (mkfsSuper_low (by decide))

theorem sFsize_mkfsSuper (h : fssize ≤ V7FS_MAX_FS_SIZE) : sFsize (mkfsSuper fssize isize n m time) = fssize := by
  have hset : sFsize (setFsize (setIsize cleared (isize + 2)) fssize) = fssize := by
    rw [V7FS_MAX_FS_SIZE] at h
    exact long_setLong (by omega)
  rw [← hset]
  exact long_congr fun i hi ↦ mkfsSuper_low (by omega)

theorem sTfree_mkfsSuper : sTfree (mkfsSuper fssize isize n m time) = 0 := by
  have hset : sTfree (setTfree (setM (setN (setFsize (setIsize cleared (isize + 2)) fssize) n) m) 0) = 0 :=
    long_setLong (by decide)
  rw [← hset]
  refine long_congr fun i hi ↦ ?_
  unfold mkfsSuper
  rw [setFmod_apply_of_ne _ _ (by omega)]
  exact (setLong_apply_of_apart (by omega)).trans (setShort_apply_of_apart (by omega))

theorem sTinode_mkfsSuper : sTinode (mkfsSuper fssize isize n m time) = 0 := by
  have hset : (sTinode (setTinode (setTfree (setM (setN (setFsize (setIsize cleared (isize + 2)) fssize) n) m) 0) 0) : ℤ) =
      0 % 65536 := ushort_setShort
  have hsame : sTinode (mkfsSuper fssize isize n m time) =
      sTinode (setTinode (setTfree (setM (setN (setFsize (setIsize cleared (isize + 2)) fssize) n) m) 0) 0) := by
    unfold mkfsSuper
    refine ushort_congr ?_ ?_
    · exact (setFmod_apply_of_ne _ _ (by decide)).trans (setLong_apply_of_apart (by decide))
    · exact (setFmod_apply_of_ne _ _ (by decide)).trans (setLong_apply_of_apart (by decide))
  omega

/-- The free list is empty at first. -/
theorem freeList_mkfsSuper {clean : ℤ → Prop} {disk : ℤ → Buffer} :
    FreeList clean disk (mkfsSuper fssize isize n m time) [] := by
  refine ⟨sNfree_mkfsSuper.ge, ?_, ?_, by simp, List.nodup_nil, sTfree_mkfsSuper⟩
  · rw [sNfree_mkfsSuper]
    decide
  · have hlen : (entries (mkfsSuper fssize isize n m time) 6).length = (sNfree (mkfsSuper fssize isize n m time)).toNat :=
      length_entries _ 6
    rw [sNfree_mkfsSuper] at hlen
    rw [List.length_eq_zero_iff.mp hlen]
    exact .nil

end Super

section Table

variable {v w : Volume} {first : Buffer} {k : ℕ}

/-- The blocks of the table of inodes that are written. -/
structure Tabled (first : Buffer) (v w : Volume) (k : ℕ) : Prop where
  fp : ∀ i, i ≠ 422 → i ≠ 423 → w.fp i = v.fp i
  total : (sTinode w.fp : ℤ) = if k = 0 then 0 else (8 * k - 2 : ℤ)
  inode : w.inode = v.inode
  disk : ∀ c : ℤ, w.disk c = if 2 ≤ c ∧ c < k + 2 then if c = 2 then first else cleared else v.disk c
  cache : ∀ c : ℤ, w.cache c = if 2 ≤ c ∧ c < k + 2 then none else v.cache c

/-- The total of the inodes after one more block. -/
def addedInodes (fp : Superblock) (iblk : ℕ) : Superblock :=
  if iblk = 0 then setTinode (setTinode fp (sTinode fp + NIPB)) (sTinode (setTinode fp (sTinode fp + NIPB)) - 2)
  else setTinode fp (sTinode fp + NIPB)

theorem addedInodes_apply (fp : Superblock) (iblk : ℕ) {i : ℕ} (h : i ≠ 422) (h' : i ≠ 423) :
    addedInodes fp iblk i = fp i := by
  unfold addedInodes
  split
  · exact (setShort_apply_of_apart (by omega)).trans (setShort_apply_of_apart (by omega))
  · exact setShort_apply_of_apart (by omega)

theorem sTinode_addedInodes (fp : Superblock) (iblk : ℕ) (h : sTinode fp + 8 < 65536) :
    (sTinode (addedInodes fp iblk) : ℤ) = if iblk = 0 then (sTinode fp + 6 : ℤ) else sTinode fp + 8 := by
  have hadd : (sTinode (setTinode fp (sTinode fp + NIPB)) : ℤ) = (sTinode fp + NIPB) % 65536 := ushort_setShort
  have hsub : (sTinode (setTinode (setTinode fp (sTinode fp + NIPB)) (sTinode (setTinode fp (sTinode fp + NIPB)) - 2)) : ℤ) =
      (sTinode (setTinode fp (sTinode fp + NIPB)) - 2) % 65536 := ushort_setShort
  rw [NIPB] at hadd
  unfold addedInodes
  split
  · rw [hsub, NIPB, hadd]
    push_cast
    omega
  · rw [NIPB, hadd]
    push_cast
    omega

theorem Tabled.next (h : Tabled first v w k) (hk : k < 8192) : Tabled first v (inodeBlock first w k) (k + 1) := by
  have hblock : inodeBlock first w k = bwrite { w with fp := addedInodes w.fp k } (k + 2) (if k = 0 then first else cleared) :=
    rfl
  have htotal := h.total
  have hlt : sTinode w.fp + 8 < 65536 := by
    split at htotal <;> omega
  have hadd := sTinode_addedInodes w.fp k hlt
  rw [hblock]
  refine ⟨fun i hi hi' ↦ (addedInodes_apply w.fp k hi hi').trans (h.fp i hi hi'), ?_, h.inode, fun c ↦ ?_, fun c ↦ ?_⟩
  · change (sTinode (addedInodes w.fp k) : ℤ) = _
    rw [hadd]
    split at htotal <;> rename_i hzero
    · rw [if_pos hzero, htotal, if_neg (Nat.succ_ne_zero k), hzero]
      rfl
    · rw [if_neg hzero, htotal, if_neg (Nat.succ_ne_zero k)]
      push_cast
      ring
  · change Function.update w.disk (k + 2 : ℤ) (if k = 0 then first else cleared) c = _
    by_cases heq : c = k + 2
    · have hrange : (2 : ℤ) ≤ c ∧ c < (k + 1 : ℕ) + 2 := by omega
      rw [if_pos hrange, heq, Function.update_self]
      exact if_congr (by omega) rfl rfl
    · rw [Function.update_of_ne heq, h.disk c]
      push_cast
      exact if_congr (by omega) rfl rfl
  · change Function.update w.cache (k + 2 : ℤ) none c = _
    by_cases heq : c = k + 2
    · have hrange : (2 : ℤ) ≤ c ∧ c < (k + 1 : ℕ) + 2 := by omega
      rw [if_pos hrange, heq, Function.update_self]
    · rw [Function.update_of_ne heq, h.cache c]
      push_cast
      exact if_congr (by omega) rfl rfl

theorem tabled_foldl (hzero : sTinode v.fp = 0) (hk : k ≤ 8192) :
    Tabled first v ((List.range k).foldl (inodeBlock first) v) k := by
  induction k with
  | zero =>
    refine ⟨fun _ _ _ ↦ rfl, ?_, rfl, fun c ↦ ?_, fun c ↦ ?_⟩
    · rw [if_pos rfl]
      exact Int.ofNat_eq_zero.mpr hzero
    · exact (if_neg (by omega)).symm
    · exact (if_neg (by omega)).symm
  | succ k ih =>
    rw [List.range_succ, List.foldl_append]
    exact (ih (by omega)).next (by omega)

theorem clearTail_apply {fp : Superblock} {i : ℕ}
    (h : i < 8 + 4 * (sNfree fp).toNat ∨ 208 ≤ i) : clearTail fp i = fp i := by
  have hall (l : List ℕ) (hl : ∀ j ∈ l, (sNfree fp).toNat ≤ j ∧ j < 50) (b : Superblock) :
      l.foldl (fun fp j ↦ setFree fp j 0) b i = b i := by
    induction l generalizing b with
    | nil => rfl
    | cons j l ih =>
      have hj := hl j List.mem_cons_self
      rw [List.foldl_cons, ih (fun p hp ↦ hl p (List.mem_cons_of_mem _ hp))]
      exact setLong_apply_of_apart (by omega)
  refine hall _ (fun j hj ↦ ?_) fp
  have hbounds := List.mem_range'_1.mp hj
  omega

end Table

section Modes

variable {uid gid time root : ℤ}

theorem firstInodes_apply_of_large {i : ℕ} (h : 128 ≤ i) : firstInodes uid gid time root i = 0 := by
  unfold firstInodes
  refine (setShort_apply_of_apart (by omega)).trans ((setLong_apply_of_apart (by omega)).trans ?_)
  refine (setLong_apply_of_apart (by omega)).trans ((setLong_apply_of_apart (by omega)).trans ?_)
  refine (put_apply_of_apart (.inr ?_)).trans ((setLong_apply_of_apart (by omega)).trans ?_)
  · exact le_trans (show 76 + 3 ≤ 128 by decide) h
  refine (setShort_apply_of_apart (by omega)).trans ((setShort_apply_of_apart (by omega)).trans ?_)
  refine (setShort_apply_of_apart (by omega)).trans ((setLong_apply_of_apart (by omega)).trans ?_)
  refine (setLong_apply_of_apart (by omega)).trans ((setLong_apply_of_apart (by omega)).trans ?_)
  exact setShort_apply_of_apart (by omega)

theorem firstInodes_apply_of_small {i : ℕ} (h : i < 52) :
    firstInodes uid gid time root i = setShort cleared 0 IFREG i := by
  unfold firstInodes
  refine (setShort_apply_of_apart (by omega)).trans ((setLong_apply_of_apart (by omega)).trans ?_)
  refine (setLong_apply_of_apart (by omega)).trans ((setLong_apply_of_apart (by omega)).trans ?_)
  refine (put_apply_of_apart (.inl (by omega))).trans ((setLong_apply_of_apart (by omega)).trans ?_)
  refine (setShort_apply_of_apart (by omega)).trans ((setShort_apply_of_apart (by omega)).trans ?_)
  refine (setShort_apply_of_apart (by omega)).trans ((setLong_apply_of_apart (by omega)).trans ?_)
  exact (setLong_apply_of_apart (by omega)).trans (setLong_apply_of_apart (by omega))

theorem ushort_firstInodes_root : ushort (firstInodes uid gid time root) 64 = 16895 := by
  have hvalue : (ushort (firstInodes uid gid time root) 64 : ℤ) = (IFDIR + 511) % 65536 := ushort_setShort
  have hmode : (IFDIR + 511) % 65536 = 16895 := by decide
  omega

theorem ushort_firstInodes_bad : ushort (firstInodes uid gid time root) 0 = 32768 := by
  have hsame : ushort (firstInodes uid gid time root) 0 = ushort (setShort cleared 0 IFREG) 0 :=
    ushort_congr (firstInodes_apply_of_small (by decide)) (firstInodes_apply_of_small (by decide))
  have hvalue : (ushort (setShort cleared 0 IFREG) 0 : ℤ) = IFREG % 65536 := ushort_setShort
  have hmode : IFREG % 65536 = 32768 := by decide
  omega

theorem ushort_of_zero {b : Buffer} {off : ℕ} (h : b off = 0) (h' : b (off + 1) = 0) : ushort b off = 0 := by
  unfold ushort
  rw [h, h']
  rfl

/-- Only the first two inodes have a mode. -/
theorem diMode_eq_zero_iff {v : Volume} {n i : ℕ} (hi : 1 ≤ i) (hle : i ≤ 8 * n)
    (hview : ∀ c : ℤ, 2 ≤ c → c < n + 2 → v.view c = if c = 2 then firstInodes uid gid time root else cleared) :
    v.diMode i = 0 ↔ 3 ≤ i := by
  have hblock := hview (itod i) (by rw [itod]; omega) (by rw [itod]; omega)
  rw [Volume.diMode, hblock]
  by_cases hfirst : i ≤ 8
  · have htwo : itod i = 2 := by
      rw [itod]
      omega
    rw [if_pos htwo]
    constructor
    · intro hzero
      by_contra hlt
      obtain rfl | rfl : i = 1 ∨ i = 2 := by omega
      · exact absurd (ushort_firstInodes_bad.symm.trans hzero) (by decide)
      · exact absurd (ushort_firstInodes_root.symm.trans hzero) (by decide)
    · intro hthree
      have hplace : 128 ≤ 64 * itoo i := by
        rw [itoo]
        omega
      exact ushort_of_zero (firstInodes_apply_of_large hplace) (firstInodes_apply_of_large (by omega))
  · have hlater : itod i ≠ 2 := by
      rw [itod]
      omega
    rw [if_neg hlater]
    exact iff_of_true (ushort_of_zero rfl rfl) (by omega)

theorem card_spares {v : Volume} {n : ℕ} (hn : 1 ≤ n) (hall : v.ninodes = 8 * n) (hinode : v.inode = [])
    (hmode : ∀ i, 1 ≤ i → i ≤ 8 * n → (v.diMode i = 0 ↔ 3 ≤ i)) : v.spares.card = 8 * n - 2 := by
  have hspares : v.spares = Finset.Ico 3 (8 * n + 1) := by
    ext i
    rw [mem_spares, Finset.mem_Ico, Volume.Spare, hall, hinode]
    constructor
    · rintro ⟨⟨hpos, hle⟩, hzero, -⟩
      exact ⟨(hmode i hpos hle).mp hzero, Nat.lt_succ_of_le hle⟩
    · rintro ⟨hthree, hlt⟩
      exact ⟨⟨by omega, by omega⟩, (hmode i (by omega) (by omega)).mpr hthree, by simp⟩
  rw [hspares, Nat.card_Ico]
  omega

end Modes

section Result

variable {fssize isize : ℕ} {flparams : Flparams} {uid gid time root : ℤ} {disk : ℤ → Buffer} {v w : Volume}

theorem Flparams.fn_pos (flparams : Flparams) : 0 < flparams.fn := by
  unfold Flparams.fn
  split
  · decide
  · omega

/-- The sizes that `v7fs_mkfs` accepts. -/
def Accepted (fssize isize : ℕ) : Prop :=
  (V7FS_MIN_FS_SIZE ≤ fssize ∧ fssize ≤ V7FS_MAX_FS_SIZE) ∧
    V7FS_MIN_ITABLE_SIZE ≤ defaultIsize fssize isize ∧ defaultIsize fssize isize ≤ V7FS_MAX_ITABLE_SIZE ∧
      defaultIsize fssize isize ≤ fssize - 4

instance (fssize isize : ℕ) : Decidable (Accepted fssize isize) := inferInstanceAs (Decidable (_ ∧ _))

/-- The volume before any block is free. -/
structure Fresh (fssize n : ℕ) (v : Volume) : Prop where
  list : FreeList v.Clean v.disk v.fp []
  isize : sIsize v.fp = n + 2
  fsize : sFsize v.fp = fssize
  zero : ∀ i, 6 ≤ i ∧ i < 412 ∨ i = 413 → v.fp i = 0
  total : sTinode v.fp = 0
  cache : ∀ c, v.cache c = none
  inode : v.inode = []

theorem fresh_mkfsSuper {n : ℕ} (hn : n ≤ 8192) (hmax : fssize ≤ V7FS_MAX_FS_SIZE) (flparams : Flparams) (time : ℤ)
    (disk : ℤ → Buffer) :
    Fresh fssize n
      { fp := mkfsSuper fssize n flparams.fn flparams.fm time, disk, cache := fun _ ↦ none, inode := [] } := by
  refine ⟨freeList_mkfsSuper, sIsize_mkfsSuper hn, sFsize_mkfsSuper hmax, fun i hi ↦ ?_, sTinode_mkfsSuper, fun _ ↦ rfl, rfl⟩
  exact mkfsSuper_apply _ _ _ _ _ hi

theorem mem_lost_range {n fsize : ℕ} {lo : ℤ} (hpos : 0 < fsize) (h : lo < fsize) {b : ℤ} (hb : b ∈ lost fsize n) : lo ≤ b ∧ b < fsize := by
  unfold lost at hb
  split at hb
  · rw [List.mem_singleton] at hb
    omega
  · exact absurd hb List.not_mem_nil

/-- The free list of the new file system, and the first block that is allocated. -/
structure Filled (fssize n fn : ℕ) (v w : Volume) (fp : Superblock) (root : ℤ) (rest : List ℤ) : Prop where
  list : FreeList (fun c ↦ Function.update w.cache root (some fun _ ↦ 0) c = none) w.disk fp rest
  partition : ∀ b : ℤ, (n + 2 : ℤ) ≤ b → b < fssize → (b ∈ root :: lost fssize fn ↔ b ∉ rest)
  apart : root ∉ lost fssize fn
  range : (n + 2 : ℤ) ≤ root ∧ root < fssize
  keeps : KeepsInodes v.fp fp
  fmod : sFmod fp = 1
  cache : ∀ c, c < (n + 2 : ℤ) → w.cache c = none
  inode : w.inode = []

theorem Fresh.filled {n fn : ℕ} (h : Fresh fssize n v) (hfn : 0 < fn) (fm : ℕ) (hroom : n + 4 ≤ fssize) :
    ∃ w fp root rest,
      alloc (initfreelist v fn fm) =
        ({ w with fp, cache := Function.update w.cache root (some fun _ ↦ 0) }, some root) ∧
      Filled fssize n fn v w fp root rest := by
  have hninode : sNinode v.fp = 0 := short_of_zero (h.zero 208 (by decide)) (h.zero 209 (by decide))
  have hle : sNinode v.fp ≤ NICINOD := by
    rw [hninode]
    decide
  obtain ⟨stack, hfreeing, hstack⟩ := initfreelist_spec hfn fm h.list h.isize h.fsize (by omega) (by omega) hle
  generalize initfreelist v fn fm = w at hfreeing
  rcases List.eq_nil_or_concat stack with rfl | ⟨rest, root, rfl⟩
  · have hfirst : (n + 2 : ℤ) ∉ lost fssize fn := by
      intro hmem
      have hlow := (@mem_lost_range fn fssize (n + 3) (by omega) (by omega) _ hmem).1
      omega
    exact absurd ((hstack (n + 2)).mpr ⟨by omega, hfirst⟩) List.not_mem_nil
  · rw [List.concat_eq_append] at hfreeing hstack
    have hisize : sIsize w.fp = n + 2 := hfreeing.keeps.sIsize.trans h.isize
    have hninode' : sNinode w.fp = sNinode v.fp :=
      short_congr (hfreeing.keeps 208 (by decide)) (hfreeing.keeps 209 (by decide))
    obtain ⟨fp, halloc, hkeeps, hfmod, hlist⟩ := alloc_of_top hfreeing.list (by omega) (hninode'.trans_le hle)
    obtain ⟨hrange, hapart⟩ := (hstack root).mp (by simp)
    refine ⟨w, fp, root, rest, halloc, hlist, fun b hb hb' ↦ ?_, hapart, hrange, hfreeing.keeps.trans hkeeps, hfmod,
      fun c hc ↦ ?_, hfreeing.inode.trans h.inode⟩
    · have hnodup := List.nodup_append'.mp hfreeing.list.nodup
      have hmem := hstack b
      rw [List.mem_append, List.mem_singleton] at hmem
      rw [List.mem_cons]
      constructor
      · rintro (rfl | hlost) hrest
        · exact hnodup.2.2 hrest (List.mem_singleton_self _)
        · exact (hmem.mp (.inl hrest)).2 hlost
      · intro hrest
        by_contra hneither
        obtain ⟨hne, hlost⟩ := not_or.mp hneither
        exact (hmem.mpr ⟨⟨hb, hb'⟩, hlost⟩).elim hrest hne
    · have hframe := (hfreeing.frame c (by omega)).2
      exact hframe.trans (h.cache c)

theorem clearTail_frame {fp fp' : Superblock} (h : ∀ i, i ≠ 422 → i ≠ 423 → fp' i = fp i) {i : ℕ}
    (hi : i < 8 + 4 * (sNfree fp).toNat ∨ 208 ≤ i) (h422 : i ≠ 422) (h423 : i ≠ 423) : clearTail fp' i = fp i := by
  have hnfree : sNfree fp' = sNfree fp := short_congr (h 6 (by decide) (by decide)) (h 7 (by decide) (by decide))
  exact (clearTail_apply (by rw [hnfree]; exact hi)).trans (h i h422 h423)

/-- The free list after the unused part of its table is cleared. -/
theorem FreeList.clearTail {clean : ℤ → Prop} {disk : ℤ → Buffer} {fp fp' : Superblock} {stack : List ℤ}
    (hlist : FreeList clean disk fp stack) (h : ∀ i, i ≠ 422 → i ≠ 423 → fp' i = fp i) :
    FreeList clean disk (clearTail fp') stack := by
  have hbyte (i : ℕ) (hi : i < 8 ∨ 208 ≤ i ∧ i < 422) : Filsys.clearTail fp' i = fp i :=
    clearTail_frame h (by omega) (by omega) (by omega)
  have hnfree : sNfree (Filsys.clearTail fp') = sNfree fp := short_congr (hbyte 6 (by decide)) (hbyte 7 (by decide))
  have hisize : sIsize (Filsys.clearTail fp') = sIsize fp := short_congr (hbyte 0 (by decide)) (hbyte 1 (by decide))
  have hfsize : sFsize (Filsys.clearTail fp') = sFsize fp := long_congr fun i hi ↦ hbyte (2 + i) (by omega)
  have htfree : sTfree (Filsys.clearTail fp') = sTfree fp := long_congr fun i hi ↦ hbyte (418 + i) (by omega)
  have hle := hlist.le
  rw [NICFREE] at hle
  have hentries : entries fp 6 = entries (Filsys.clearTail fp') 6 := by
    obtain ⟨k, hk⟩ : ∃ k, (sNfree fp).toNat = k := ⟨_, rfl⟩
    have hbound : k ≤ 50 := by omega
    refine entries_congr_of_lt fun i hi ↦ ?_
    have hlt : i < 2 + 4 * k := hk ▸ hi
    have hplace : 6 + i < 8 + 4 * (sNfree fp).toNat := by
      rw [hk]
      omega
    clear hi
    exact (clearTail_frame h (.inl hplace) (by omega) (by omega)).symm
  refine ⟨hlist.nonneg.trans hnfree.ge, hnfree.le.trans hlist.le, hentries ▸ hlist.chain, ?_, hlist.nodup,
    htfree.trans hlist.total⟩
  intro b hb
  rw [badblock, hisize, hfsize]
  exact hlist.range b hb

/-- What stands on the disk when the first block is that of the root directory. -/
theorem sound_tabled {rest owned : List ℤ} {n : ℕ} {fp fp' : Superblock} (hn : 1 ≤ n) (hle : n ≤ 8192)
    (hlist : FreeList (fun c ↦ Function.update v.cache root (some fun _ ↦ 0) c = none) v.disk fp rest)
    (hpartition : ∀ b : ℤ, (n + 2 : ℤ) ≤ b → b < fssize → (b ∈ owned ↔ b ∉ rest))
    (hroot : (n + 2 : ℤ) ≤ root ∧ root < fssize) (howned : ∀ b ∈ owned, (n + 2 : ℤ) ≤ b ∧ b < fssize)
    (hisize : sIsize fp = n + 2) (hfsize : sFsize fp = fssize) (hlow : ∀ i, 208 ≤ i ∧ i < 412 ∨ i = 413 → fp i = 0)
    (hfmod : sFmod fp = 1) (hcache : ∀ c, c < (n + 2 : ℤ) → v.cache c = none)
    (hinode : v.inode = [])
    (htabled : Tabled (firstInodes uid gid time root)
      (bwrite { v with fp, cache := Function.update v.cache root (some fun _ ↦ 0) } root rootDirectory) w n)
    (htail : fp' = clearTail w.fp) : Sound (n + 2) fssize { w with fp := fp' } owned := by
  have hbyte (i : ℕ) (hi : 208 ≤ i ∧ i < 422 ∨ i < 8) : fp' i = fp i := by
    rw [htail]
    exact clearTail_frame htabled.fp (by omega) (by omega) (by omega)
  have hzero (i : ℕ) (hi : 208 ≤ i ∧ i < 412 ∨ i = 413) : fp' i = 0 :=
    (hbyte i (by omega)).trans (hlow i hi)
  have hisize' : sIsize (fp') = n + 2 :=
    (short_congr (hbyte 0 (by decide)) (hbyte 1 (by decide))).trans hisize
  have hfsize' : sFsize (fp') = fssize := (long_congr fun i hi ↦ hbyte (2 + i) (by omega)).trans hfsize
  have hninode : sNinode (fp') = 0 := short_of_zero (hzero 208 (by decide)) (hzero 209 (by decide))
  have htinode : (sTinode (fp') : ℤ) = 8 * n - 2 := by
    have hsame : sTinode fp' = sTinode w.fp := by
      rw [htail]
      exact ushort_congr (clearTail_apply (.inr (by decide))) (clearTail_apply (.inr (by decide)))
    rw [hsame, htabled.total, if_neg (by omega)]
  have hcache' (c : ℤ) (hc : c < (n + 2 : ℤ)) : w.cache c = none := by
    rw [htabled.cache c]
    split
    · rfl
    · have hne : c ≠ root := by omega
      exact (Function.update_of_ne hne ..).trans ((Function.update_of_ne hne ..).trans (hcache c hc))
  have hview (c : ℤ) (hc : 2 ≤ c) (hc' : c < n + 2) :
      ({ w with fp := fp' } : Volume).view c = if c = 2 then firstInodes uid gid time root else cleared := by
    rw [Volume.view, hcache' c hc', Option.getD_none, htabled.disk c, if_pos ⟨hc, hc'⟩]
  have hall : ({ w with fp := fp' } : Volume).ninodes = 8 * n := by
    rw [Volume.ninodes, hisize', NIPB, SUPERB]
    omega
  have hinode' : w.inode = [] := htabled.inode.trans hinode
  have hcard : ({ w with fp := fp' } : Volume).spares.card = 8 * n - 2 :=
    card_spares hn hall hinode' fun i hi hle ↦ diMode_eq_zero_iff hi hle hview
  have hlist' : FreeList w.Clean w.disk fp' rest := by
    rw [htail]
    refine FreeList.clearTail (FreeList.congr hlist (fun b hb hc ↦ ?_) fun b hb hc ↦ ?_) htabled.fp
    · have hbad := not_or.mp (hlist.range b hb)
      rw [hisize] at hbad
      have hne : b ≠ root := by
        intro heq
        rw [heq, Function.update_self] at hc
        exact Option.some_ne_none _ hc
      rw [htabled.disk b, if_neg (by omega)]
      exact Function.update_of_ne hne ..
    · have hbad := not_or.mp (hlist.range b hb)
      rw [hisize] at hbad
      have hne : b ≠ root := by
        intro heq
        rw [heq, Function.update_self] at hc
        exact Option.some_ne_none _ hc
      rw [Volume.Clean, htabled.cache b, if_neg (by omega)]
      exact (Function.update_of_ne hne ..).trans hc
  have hmem : inodes (fp') = [] := by
    have hlen := length_inodes (fp')
    rw [hninode] at hlen
    exact List.length_eq_zero_iff.mp hlen
  have htotal : sTinode (fp') = ({ w with fp := fp' } : Volume).spares.card := by
    rw [hcard]
    omega
  have hnames : InodeList { w with fp := fp' } := by
    refine ⟨hninode.ge, ?_, ?_, fun ino hino ↦ ?_, htotal, ?_⟩
    · rw [hninode]
      decide
    · rw [hmem]
      exact List.nodup_nil
    · rw [hmem] at hino
      exact absurd hino List.not_mem_nil
    · rw [hall]
      omega
  refine ⟨?_, ⟨hzero 410 (by decide), hzero 411 (by decide), hzero 413 (by decide)⟩,
    ⟨hisize', hfsize', ⟨rest, hlist', hpartition⟩, hnames.names⟩, howned, hnames, ?_, ?_, ?_⟩
  · rw [SUPERB]
    omega
  · intro ip hip
    rw [hinode'] at hip
    exact absurd hip List.not_mem_nil
  · exact hcache' SUPERB (by rw [SUPERB]; omega)
  · intro hfmod'
    have hone : sFmod (fp') = 1 := (hbyte 412 (by decide)).trans hfmod
    rw [hone] at hfmod'
    exact absurd hfmod' (by decide)

/-- No inode is in core, the super block is not written, and the table has the first two inodes. -/
structure Unmounted (n : ℕ) (first : Buffer) (root : ℤ) (v : Volume) : Prop where
  inode : v.inode = []
  fmod : sFmod v.fp = 1
  table : ∀ c : ℤ, 2 ≤ c → c < n + 2 → v.view c = if c = 2 then first else cleared
  directory : v.view root = rootDirectory

theorem Tabled.unmounted {n : ℕ} {first : Buffer} (h : Tabled first v w n) (hinode : v.inode = []) (hfmod : sFmod v.fp = 1)
    (hroot : (n + 2 : ℤ) ≤ root) (hdirectory : v.view root = rootDirectory) :
    Unmounted n first root { w with fp := clearTail w.fp } := by
  refine ⟨h.inode.trans hinode, ?_, fun c hc hc' ↦ ?_, ?_⟩
  · have hbyte : clearTail w.fp 412 = v.fp 412 := clearTail_frame h.fp (.inr (by decide)) (by decide) (by decide)
    exact hbyte.trans hfmod
  · have hclean : w.cache c = none := by
      rw [h.cache c, if_pos ⟨hc, hc'⟩]
    have hdisk : w.disk c = if c = 2 then first else cleared := by
      rw [h.disk c, if_pos ⟨hc, hc'⟩]
    rw [Volume.view, hclean, Option.getD_none, hdisk]
  · have hout : ¬ (2 ≤ root ∧ root < n + 2) := by omega
    rw [← hdirectory, Volume.view, Volume.view]
    dsimp only
    rw [h.cache root, h.disk root, if_neg hout, if_neg hout]

theorem view_bwrite_self (v : Volume) (b : ℤ) (c : Buffer) : (bwrite v b c).view b = c := by
  rw [Volume.view, bwrite]
  dsimp only
  rw [Function.update_self, Function.update_self]
  rfl

/-- What the root directory and the table of inodes make of the volume. -/
theorem Filled.sound {n fn : ℕ} {fp : Superblock} {rest : List ℤ} (hfilled : Filled fssize n fn v w fp root rest)
    (hfresh : Fresh fssize n v) (hone : 1 ≤ n) (hle : n ≤ 8192) (hpos : n + 4 ≤ fssize) (uid gid time : ℤ) :
    ∃ u, writeRoot n uid gid time
        ({ w with fp, cache := Function.update w.cache root (some fun _ ↦ 0) }, some root) = some (update u time, root) ∧
      Sound (n + 2) fssize u (root :: lost fssize fn) ∧ Unmounted n (firstInodes uid gid time root) root u := by
  have htabled : Tabled (firstInodes uid gid time root)
      (bwrite { w with fp, cache := Function.update w.cache root (some fun _ ↦ 0) } root rootDirectory) _ n :=
    tabled_foldl (hfilled.keeps.sTinode.trans hfresh.total) hle
  refine ⟨_, rfl, sound_tabled hone hle hfilled.list hfilled.partition hfilled.range (fun b hb ↦ ?_) ?_ ?_ (fun i hi ↦ ?_)
    hfilled.fmod hfilled.cache hfilled.inode htabled rfl,
    htabled.unmounted hfilled.inode hfilled.fmod hfilled.range.1 (view_bwrite_self _ _ _)⟩
  · rcases List.mem_cons.mp hb with rfl | hb
    · exact hfilled.range
    · exact mem_lost_range (by omega) (by omega) hb
  · exact hfilled.keeps.sIsize.trans hfresh.isize
  · exact hfilled.keeps.sFsize.trans hfresh.fsize
  · exact (hfilled.keeps i (by omega)).trans (hfresh.zero i (by omega))

theorem mkfs_eq (h : Accepted fssize isize) (flparams : Flparams) (uid gid time : ℤ) (disk : ℤ → Buffer) :
    mkfs fssize isize flparams uid gid time disk =
      writeRoot (defaultIsize fssize isize) uid gid time (alloc (initfreelist
        { fp := mkfsSuper fssize (defaultIsize fssize isize) flparams.fn flparams.fm time, disk, cache := fun _ ↦ none,
          inode := [] } flparams.fn flparams.fm)) := by
  obtain ⟨⟨hmin, hmax⟩, hone, htable, hfits⟩ := h
  have hrange : ¬ (fssize < V7FS_MIN_FS_SIZE ∨ V7FS_MAX_FS_SIZE < fssize) := by omega
  have hitable : ¬ (defaultIsize fssize isize < V7FS_MIN_ITABLE_SIZE ∨ V7FS_MAX_ITABLE_SIZE < defaultIsize fssize isize ∨
      fssize - 4 < defaultIsize fssize isize) := by omega
  rw [mkfs, if_neg hrange]
  exact if_neg hitable

/-- `v7fs_mkfs` succeeds with the sizes it accepts. The root directory has the first block, and the lost one belongs to
nobody. -/
theorem mkfs_sound (h : Accepted fssize isize) (flparams : Flparams) (uid gid time : ℤ) (disk : ℤ → Buffer) :
    ∃ u root, mkfs fssize isize flparams uid gid time disk = some (update u time, root) ∧
      root ∉ lost fssize flparams.fn ∧
      Sound (defaultIsize fssize isize + 2) fssize u (root :: lost fssize flparams.fn) ∧
      Unmounted (defaultIsize fssize isize) (firstInodes uid gid time root) root u := by
  have hle : defaultIsize fssize isize ≤ 8192 := h.2.2.1
  have hroom : defaultIsize fssize isize + 4 ≤ fssize := by
    have hmin : 5 ≤ fssize := h.1.1
    have hfits := h.2.2.2
    omega
  have hfresh := fresh_mkfsSuper hle h.1.2 flparams time disk
  obtain ⟨w, fp, root, rest, halloc, hfilled⟩ := hfresh.filled flparams.fn_pos flparams.fm hroom
  obtain ⟨u, hroot, hsound, hunmounted⟩ := hfilled.sound hfresh h.2.1 hle hroom uid gid time
  rw [mkfs_eq h, halloc]
  exact ⟨u, root, hroot, hfilled.apart, hsound, hunmounted⟩

end Result

end S8000.Filsys
