import S8000.Filsys.Mkfs

namespace S8000.Filsys

open Foundation Foundation.Bytes Foundation.Buffer

section Mount

variable {isize fsize : ℤ} {v w : Volume} {owned : List ℤ} {stale : Buffer}

/-- The super block is read from the disk into a buffer, and the root directory comes into core. -/
def iinit (stale : Buffer) (disk : ℤ → Buffer) : Volume :=
  let fp := put stale 0 ((disk SUPERB).get 0 440)
  let v : Volume :=
    { fp := Function.update (Function.update (Function.update fp 410 0) 411 0) 413 0
      disk
      cache := fun _ ↦ none
      inode := [] }
  { v with inode := [v.dinode ROOTINO] }

/-- Nothing is only in core. -/
structure Quiet (v : Volume) : Prop where
  inode : ∀ ip ∈ v.inode, v.diMode ip.iNumber ≠ 0
  cache : ∀ c, v.cache c = none
  fmod : sFmod v.fp = 0
  root : v.diMode ROOTINO ≠ 0

theorem view_writeSuper {c : ℤ} (hc : c ≠ SUPERB) (v : Volume) (time : ℤ) : (writeSuper v time).view c = v.view c := by
  unfold writeSuper
  split
  · rfl
  · rw [Volume.view]
    dsimp only
    rw [Function.update_of_ne hc, Function.update_of_ne hc]
    rfl

theorem inode_writeSuper (v : Volume) (time : ℤ) : (writeSuper v time).inode = v.inode := by
  unfold writeSuper
  split <;> rfl

/-- Without inodes in core only the super block changes. -/
theorem update_of_empty (hinode : v.inode = []) (time : ℤ) : update v time = bflush (writeSuper v time) := by
  have hempty := (inode_writeSuper v time).trans hinode
  refine congrArg bflush ?_
  rw [writeInodes, hempty]
  change { writeSuper v time with inode := [] } = writeSuper v time
  rw [← hempty]

theorem Unmounted.view_update {n : ℕ} {first : Buffer} {root : ℤ} (h : Unmounted n first root v) (now : ℤ) {c : ℤ}
    (hc : c ≠ SUPERB) :
    (update v now).view c = v.view c := by
  rw [update_of_empty h.inode now]
  exact view_writeSuper hc v now

theorem Unmounted.diMode {n : ℕ} {uid gid time root : ℤ} (h : Unmounted n (firstInodes uid gid time root) root v) (hn : 1 ≤ n)
    (now : ℤ) {i : ℕ} (hi : 1 ≤ i) (hlt : i < 3) : (Filsys.update v now).diMode i ≠ 0 := by
  have hblock : itod i ≠ SUPERB := by
    rw [itod, SUPERB]
    omega
  rw [diMode_congr (h.view_update now hblock)]
  exact fun hzero ↦ absurd ((diMode_eq_zero_iff hi (by omega) h.table).mp hzero) (not_le.mpr hlt)

theorem Unmounted.inode_update {n : ℕ} {first : Buffer} {root : ℤ} (h : Unmounted n first root v) (now : ℤ) :
    (update v now).inode = [] := by
  rw [update_of_empty h.inode now]
  exact (inode_writeSuper v now).trans h.inode

theorem Unmounted.update {n : ℕ} {uid gid time root : ℤ} (h : Unmounted n (firstInodes uid gid time root) root v) (hn : 1 ≤ n)
    (hsound : Sound isize fsize v owned) (now : ℤ) : Quiet (Filsys.update v now) := by
  refine ⟨fun ip hip ↦ ?_, fun _ ↦ rfl, (hsound.update now).2, h.diMode hn now (by decide) (by decide)⟩
  rw [h.inode_update now] at hip
  exact absurd hip List.not_mem_nil

theorem iinit_fp_apply (stale : Buffer) (disk : ℤ → Buffer) {i : ℕ} (h : i < 440) :
    (iinit stale disk).fp i = if i = 410 ∨ i = 411 ∨ i = 413 then 0 else disk SUPERB i := by
  have hcopy : put stale 0 ((disk SUPERB).get 0 440) (0 + i) = disk SUPERB (0 + i) := put_get_apply h
  rw [Nat.zero_add] at hcopy
  change Function.update (Function.update (Function.update (put stale 0 ((disk SUPERB).get 0 440)) 410 0) 411 0) 413 0 i = _
  by_cases h413 : i = 413
  · rw [if_pos (.inr (.inr h413)), h413, Function.update_self]
  · rw [Function.update_of_ne h413]
    by_cases h411 : i = 411
    · rw [if_pos (.inr (.inl h411)), h411, Function.update_self]
    · rw [Function.update_of_ne h411]
      by_cases h410 : i = 410
      · rw [if_pos (.inl h410), h410, Function.update_self]
      · rw [Function.update_of_ne h410, if_neg (by omega), hcopy]

theorem Quiet.view_iinit (h : Quiet v) (stale : Buffer) (c : ℤ) : (iinit stale v.disk).view c = v.view c := by
  rw [Volume.view, Volume.view, h.cache c]
  rfl

theorem Quiet.not_spare_iinit {i : ℕ} (h : Quiet v) (hmode : v.diMode i ≠ 0) (stale : Buffer) :
    ¬ (iinit stale v.disk).Spare i := by
  intro hspare
  have hzero := hspare.2.1
  rw [diMode_congr (h.view_iinit stale _)] at hzero
  exact hmode hzero

theorem Quiet.spare_iinit (h : Quiet v) (hsize : sIsize (iinit stale v.disk).fp = sIsize v.fp) (i : ℕ) :
    (iinit stale v.disk).Spare i ↔ v.Spare i := by
  have htable : (iinit stale v.disk).inode = [(iinit stale v.disk).dinode ROOTINO] := rfl
  rw [Volume.Spare, Volume.Spare, ninodes_congr hsize, diMode_congr (h.view_iinit stale _), htable]
  refine and_congr_right fun _ ↦ and_congr_right fun hmode ↦ ⟨fun _ ip hip heq ↦ ?_, fun _ ip hip heq ↦ ?_⟩
  · exact h.inode ip hip (heq ▸ hmode)
  · rw [List.mem_singleton.mp hip] at heq
    have hroot : ROOTINO = i := heq
    exact h.root (hroot ▸ hmode)

/-- A disk that was left quiet is sound when it is mounted. -/
theorem Sound.iinit (h : Sound isize fsize v owned) (hquiet : Quiet v) (stale : Buffer) :
    Sound isize fsize (iinit stale v.disk) owned := by
  have hdisk := h.synced hquiet.fmod
  have hfp (i : ℕ) (hi : i < 410 ∨ 418 ≤ i ∧ i < 424) : (Filsys.iinit stale v.disk).fp i = v.disk SUPERB i := by
    rw [iinit_fp_apply _ _ (by omega), if_neg (by omega)]
  have hlock (i : ℕ) (hi : i = 410 ∨ i = 411 ∨ i = 413) : (Filsys.iinit stale v.disk).fp i = 0 := by
    rw [iinit_fp_apply _ _ (by omega), if_pos hi]
  have haccounts : Accounts (Filsys.iinit stale v.disk).Clean (Filsys.iinit stale v.disk).disk
      (Filsys.iinit stale v.disk).fp isize fsize owned v.spares :=
    (hdisk.of_bytes hfp).congr fun _ _ _ _ _ ↦ ⟨rfl, rfl⟩
  have hsize : sIsize (Filsys.iinit stale v.disk).fp = sIsize v.fp :=
    haccounts.isize_eq.trans h.accounts.isize_eq.symm
  have hall := ninodes_congr hsize
  have hspares := spares_congr (hquiet.spare_iinit hsize)
  rw [← hspares] at haccounts
  refine ⟨h.large, ⟨hlock 410 (by decide), hlock 411 (by decide), hlock 413 (by decide)⟩, haccounts, h.owned_range,
    haccounts.inodes.inodeList (hall ▸ h.list.bound), fun ip hip ↦ ?_, rfl, fun _ ↦ ?_⟩
  · have hlarge := h.large
    have hrange : ROOTINO ≤ v.ninodes := by
      rw [← h.accounts.isize_eq, SUPERB] at hlarge
      rw [Volume.ninodes, NIPB, SUPERB, ROOTINO]
      omega
    rw [List.mem_singleton.mp hip, hall]
    exact ⟨show 1 ≤ ROOTINO by decide, hrange⟩
  · rw [hspares]
    exact hdisk.congr fun _ _ _ _ _ ↦ ⟨rfl, rfl⟩

end Mount

section Runs

/-- A mounted file system, and the blocks that the files own. -/
structure State where
  v : Volume
  owned : List ℤ

inductive Call
  | alloc
  | free (bno : ℤ)
  | ialloc (fuel : ℕ)
  | ifree (ip : Inode)
  | update (time : ℤ)
  | other

/-- What the rest of the file system does: it uses the blocks that the files own, those of the table of inodes, and
the table in core, and no inode is given or taken by it. -/
structure Other (s : State) (w : Volume) : Prop where
  fp : w.fp = s.v.fp
  blocks : ∀ b, b ≤ SUPERB ∨ sIsize s.v.fp ≤ b → b ∉ s.owned → s.v.Clean b → w.disk b = s.v.disk b ∧ w.Clean b
  spare : ∀ i, w.Spare i ↔ s.v.Spare i
  table : ∀ ip ∈ w.inode, 1 ≤ ip.iNumber ∧ ip.iNumber ≤ w.ninodes

inductive Step (s : State) : Call → State → Prop
  | alloc {w : Volume} {r : Option ℤ} (h : alloc s.v = (w, r)) : Step s .alloc ⟨w, r.toList ++ s.owned⟩
  | free {b : ℤ} {w : Volume} (hb : b ∈ s.owned) (h : free s.v b = w) : Step s (.free b) ⟨w, s.owned.filter (· ≠ b)⟩
  | ialloc {fuel : ℕ} {w : Volume} {r : Option ℕ} (h : ialloc s.v fuel = some (w, r)) :
      Step s (.ialloc fuel) ⟨w, s.owned⟩
  | ifree {ip : Inode} {w : Volume} (halloc : s.v.Allocated ip.iNumber) (hlt : ip.iNumber < 65536) (h : iputFree s.v ip = w) :
      Step s (.ifree ip) ⟨w, s.owned⟩
  | update {time : ℤ} {w : Volume} (h : update s.v time = w) : Step s (.update time) ⟨w, s.owned⟩
  | other {w : Volume} (h : Other s w) : Step s .other ⟨w, s.owned⟩

/-- A number for every inode, room for a freed one or a mark already set, and a total that fits. -/
def Meets (s : State) : Call → Prop
  | .ialloc _ => s.v.Numbered
  | .ifree _ => (sNinode s.v.fp < NICINOD ∨ sFmod s.v.fp ≠ 0) ∧ s.v.spares.card + 1 < 65536
  | _ => True

inductive Run (start : State) : State → Prop
  | start : Run start start
  | step {s s' : State} {c : Call} (h : Run start s) (hmeets : Meets s c) (hstep : Step s c s') : Run start s'

variable {isize fsize : ℤ} {s s' : State} {c : Call} {nobody owned owned' : List ℤ} {v w : Volume}

/-- The files and nobody share all blocks that are not free. -/
structure Kept (isize fsize : ℤ) (nobody : List ℤ) (s : State) : Prop where
  sound : Sound isize fsize s.v (s.owned ++ nobody)
  apart : ∀ b ∈ nobody, b ∉ s.owned

theorem Accounts.congr_owned {clean : ℤ → Prop} {disk : ℤ → Buffer} {fp : Superblock} {spares : Finset ℕ}
    (h : Accounts clean disk fp isize fsize owned spares) (hsame : ∀ b, b ∈ owned' ↔ b ∈ owned) :
    Accounts clean disk fp isize fsize owned' spares := by
  obtain ⟨stack, hlist, hpartition⟩ := h.blocks
  exact ⟨h.isize_eq, h.fsize_eq, ⟨stack, hlist, fun b hb hb' ↦ (hsame b).trans (hpartition b hb hb')⟩, h.inodes⟩

theorem Sound.congr_owned (h : Sound isize fsize v owned) (hsame : ∀ b, b ∈ owned' ↔ b ∈ owned) :
    Sound isize fsize v owned' :=
  ⟨h.large, h.unlocked, h.accounts.congr_owned hsame, fun b hb ↦ h.owned_range b ((hsame b).mp hb), h.list, h.table,
    h.super, fun hzero ↦ (h.synced hzero).congr_owned hsame⟩

theorem Sound.other (h : Sound isize fsize s.v owned) (hother : Other s w) (hsub : ∀ b ∈ s.owned, b ∈ owned) :
    Sound isize fsize w owned := by
  have hsame (b : ℤ) (hb : isize ≤ b) (howned : b ∉ owned) (hc : s.v.Clean b) : w.disk b = s.v.disk b ∧ w.Clean b :=
    hother.blocks b (.inr (h.accounts.isize_eq ▸ hb)) (fun hmem ↦ howned (hsub b hmem)) hc
  have hsuper : w.disk SUPERB = s.v.disk SUPERB ∧ w.Clean SUPERB := by
    refine hother.blocks SUPERB (.inl le_rfl) (fun hmem ↦ ?_) h.super
    have hrange := (h.owned_range SUPERB (hsub SUPERB hmem)).1
    have hlarge := h.large
    omega
  have hspares := spares_congr hother.spare
  refine ⟨h.large, ?_, ?_, h.owned_range, ?_, hother.table, hsuper.2, fun hzero ↦ ?_⟩
  · rw [hother.fp]
    exact h.unlocked
  · rw [hother.fp, hspares]
    exact h.accounts.congr fun b hb _ howned hc ↦ hsame b hb howned hc
  · refine h.list.of_keeps ?_ hother.spare
    rw [hother.fp]
    exact fun _ _ ↦ rfl
  · rw [hsuper.1, hspares]
    rw [hother.fp] at hzero
    exact (h.synced hzero).congr fun b hb _ howned hc ↦ hsame b hb howned hc

/-- What `alloc` takes was free. -/
theorem Sound.not_mem_of_alloc {b : ℤ} (h : Sound isize fsize v owned) (halloc : (Filsys.alloc v).2 = some b) :
    (isize ≤ b ∧ b < fsize) ∧ b ∉ owned ∧ (Filsys.alloc v).1.view b = cleared := by
  obtain ⟨stack, hlist, hpartition⟩ := h.accounts.blocks
  rcases List.eq_nil_or_concat stack with rfl | ⟨rest, c, rfl⟩
  · obtain ⟨fp, hempty, -⟩ := alloc_of_empty hlist h.list.le
    rw [hempty] at halloc
    exact absurd halloc.symm (Option.some_ne_none b)
  · rw [List.concat_eq_append] at hlist hpartition
    obtain ⟨fp, htop, -⟩ := alloc_of_top hlist h.pos h.list.le
    rw [htop] at halloc ⊢
    obtain rfl : c = b := Option.some.inj halloc
    have hbad := not_or.mp (hlist.range c (by simp))
    rw [h.accounts.isize_eq, h.accounts.fsize_eq, not_lt, not_le] at hbad
    refine ⟨hbad, fun hmem ↦ (hpartition c hbad.1 hbad.2).mp hmem (by simp), ?_⟩
    exact congrArg (fun o : Option Buffer ↦ o.getD (v.disk c)) (Function.update_self c _ v.cache)

theorem Sound.full_of_alloc (h : Sound isize fsize v owned) (halloc : (Filsys.alloc v).2 = none) {b : ℤ} (hlow : isize ≤ b)
    (hhigh : b < fsize) : b ∈ owned := by
  obtain ⟨stack, hlist, hpartition⟩ := h.accounts.blocks
  rcases List.eq_nil_or_concat stack with rfl | ⟨rest, c, rfl⟩
  · exact (hpartition b hlow hhigh).mpr List.not_mem_nil
  · rw [List.concat_eq_append] at hlist
    obtain ⟨fp, htop, -⟩ := alloc_of_top hlist h.pos h.list.le
    rw [htop] at halloc
    exact absurd halloc (Option.some_ne_none c)

theorem Kept.alloc {r : Option ℤ} (h : Kept isize fsize nobody s) (halloc : alloc s.v = (w, r)) :
    Kept isize fsize nobody ⟨w, r.toList ++ s.owned⟩ := by
  have hsound := h.sound.alloc
  rw [halloc] at hsound
  refine ⟨?_, fun b hb hmem ↦ ?_⟩
  · refine hsound.congr_owned fun b ↦ ?_
    rw [List.append_assoc]
  · rcases List.mem_append.mp hmem with hnew | hold
    · have hresult : (Filsys.alloc s.v).2 = some b := by
        rw [halloc]
        exact Option.mem_toList.mp hnew
      exact (h.sound.not_mem_of_alloc hresult).2.1 (List.mem_append_right _ hb)
    · exact h.apart b hb hold

theorem Kept.free {b : ℤ} (h : Kept isize fsize nobody s) (hb : b ∈ s.owned) (hfree : free s.v b = w) :
    Kept isize fsize nobody ⟨w, s.owned.filter (· ≠ b)⟩ := by
  have hsound := h.sound.free (List.mem_append_left nobody hb)
  rw [hfree] at hsound
  refine ⟨hsound.congr_owned fun d ↦ ?_, fun d hd hmem ↦ h.apart d hd (List.mem_of_mem_filter hmem)⟩
  rw [List.filter_append, List.mem_append, List.mem_append]
  refine or_congr_right ⟨fun hd ↦ List.mem_filter.mpr ⟨hd, decide_eq_true ?_⟩, List.mem_of_mem_filter⟩
  rintro rfl
  exact h.apart d hd hb

theorem Kept.step (h : Kept isize fsize nobody s) (hmeets : Meets s c) (hstep : Step s c s') :
    Kept isize fsize nobody s' := by
  cases hstep with
  | alloc halloc => exact h.alloc halloc
  | free hb hfree => exact h.free hb hfree
  | ialloc hrun => exact ⟨h.sound.ialloc hmeets hrun, h.apart⟩
  | ifree halloc hlt hput => exact ⟨hput ▸ h.sound.iputFree halloc hlt hmeets.1 hmeets.2, h.apart⟩
  | update hupdate => exact ⟨hupdate ▸ (h.sound.update _).1, h.apart⟩
  | other hother => exact ⟨h.sound.other hother fun b hb ↦ List.mem_append_left _ hb, h.apart⟩

theorem Kept.run {start : State} (h : Kept isize fsize nobody start) (hrun : Run start s) : Kept isize fsize nobody s := by
  induction hrun with
  | start => exact h
  | step _ hmeets hstep ih => exact ih.step hmeets hstep

end Runs

section FromMkfs

variable {fssize isize : ℕ} {flparams : Flparams} {uid gid time root : ℤ} {disk : ℤ → Buffer} {v : Volume} {s : State}

/-- Every run starts sound after `v7fs_mkfs`, but for the block that the free list misses. -/
theorem kept_of_mkfs (h : Accepted fssize isize) (hmkfs : mkfs fssize isize flparams uid gid time disk = some (v, root))
    (stale : Buffer) (hrun : Run ⟨iinit stale v.disk, [root]⟩ s) :
    Kept (defaultIsize fssize isize + 2) fssize (lost fssize flparams.fn) s := by
  obtain ⟨u, root', hmade, hapart, hsound, hunmounted⟩ := mkfs_sound h flparams uid gid time disk
  rw [hmkfs] at hmade
  obtain ⟨rfl, rfl⟩ := Prod.mk.inj (Option.some.inj hmade)
  have hquiet := hunmounted.update h.2.1 hsound time
  refine Kept.run ⟨(hsound.update time).1.iinit hquiet stale, fun b hb hmem ↦ ?_⟩ hrun
  rw [List.mem_singleton] at hmem
  exact hapart (hmem ▸ hb)

/-- The accounts on the disk after every `update` of every run. -/
theorem accounts_of_run (h : Accepted fssize isize)
    (hmkfs : mkfs fssize isize flparams uid gid time disk = some (v, root)) (stale : Buffer)
    (hrun : Run ⟨iinit stale v.disk, [root]⟩ s) (now : ℤ) :
    Accounts (fun _ ↦ True) (update s.v now).disk ((update s.v now).disk SUPERB) (defaultIsize fssize isize + 2) fssize
      (s.owned ++ lost fssize flparams.fn) (update s.v now).spares :=
  (kept_of_mkfs h hmkfs stale hrun).sound.accounts_update now

/-- However the file system is used, each `update` leaves on the disk a super block that counts right: a block of the
data is on the free list once, or it is in use. -/
theorem mkfs_accounts (h : Accepted fssize isize) (flparams : Flparams) (uid gid time : ℤ) (disk : ℤ → Buffer) :
    ∃ v root, mkfs fssize isize flparams uid gid time disk = some (v, root) ∧
      ∀ stale s, Run ⟨iinit stale v.disk, [root]⟩ s → ∀ now,
        Accounts (fun _ ↦ True) (update s.v now).disk ((update s.v now).disk SUPERB) (defaultIsize fssize isize + 2) fssize
          (s.owned ++ lost fssize flparams.fn) (update s.v now).spares := by
  obtain ⟨u, root, hmkfs, -⟩ := mkfs_sound h flparams uid gid time disk
  exact ⟨_, root, hmkfs, fun stale s hrun now ↦ accounts_of_run h hmkfs stale hrun now⟩

theorem mkfs_accounts_ten :
    ∃ v root, mkfs 10 1 ⟨3, 4⟩ 0 0 0 (fun _ ↦ cleared) = some (v, root) ∧
      ∀ stale s, Run ⟨iinit stale v.disk, [root]⟩ s → ∀ now,
        Accounts (fun _ ↦ True) (update s.v now).disk ((update s.v now).disk SUPERB) 3 10 (s.owned ++ lost 10 4)
          (update s.v now).spares :=
  mkfs_accounts (by decide) ⟨3, 4⟩ 0 0 0 fun _ ↦ cleared

/-- What `alloc` gives in a run was nobody's, and it gives nothing only when all blocks but the lost one are in use. -/
theorem alloc_of_run (h : Accepted fssize isize)
    (hmkfs : mkfs fssize isize flparams uid gid time disk = some (v, root)) (stale : Buffer)
    (hrun : Run ⟨iinit stale v.disk, [root]⟩ s) :
    (∀ b, (alloc s.v).2 = some b → (defaultIsize fssize isize + 2 ≤ b ∧ b < fssize) ∧ b ∉ s.owned ∧
      b ∉ lost fssize flparams.fn ∧ (alloc s.v).1.view b = cleared) ∧
    ((alloc s.v).2 = none → ∀ b : ℤ, defaultIsize fssize isize + 2 ≤ b → b < fssize →
      b ∈ s.owned ∨ b ∈ lost fssize flparams.fn) := by
  have hsound := (kept_of_mkfs h hmkfs stale hrun).sound
  refine ⟨fun b halloc ↦ ?_, fun halloc b hlow hhigh ↦ List.mem_append.mp (hsound.full_of_alloc halloc hlow hhigh)⟩
  obtain ⟨hrange, hmem, hview⟩ := hsound.not_mem_of_alloc halloc
  rw [List.mem_append, not_or] at hmem
  exact ⟨hrange, hmem.1, hmem.2, hview⟩

theorem alloc_of_run_ten :
    ∃ v root, mkfs 10 1 ⟨3, 4⟩ 0 0 0 (fun _ ↦ cleared) = some (v, root) ∧
      (∀ b, (alloc (iinit cleared v.disk)).2 = some b → (3 ≤ b ∧ b < 10) ∧ b ∉ [root] ∧ b ∉ lost 10 4 ∧
        (alloc (iinit cleared v.disk)).1.view b = cleared) ∧
      ((alloc (iinit cleared v.disk)).2 = none → ∀ b : ℤ, 3 ≤ b → b < 10 → b ∈ [root] ∨ b ∈ lost 10 4) := by
  obtain ⟨u, root, hmkfs, -⟩ := @mkfs_sound 10 1 (by decide) ⟨3, 4⟩ 0 0 0 fun _ ↦ cleared
  exact ⟨_, root, hmkfs, alloc_of_run (by decide) hmkfs cleared .start⟩

end FromMkfs

end S8000.Filsys
