import S8000.Filsys.Store

namespace S8000.Filsys

open Foundation Foundation.Bytes Foundation.Buffer

section Keeping

variable {isize fsize : ℤ} {nobody owned : List ℤ} {s t : State} {v w : Volume} {ip : Inode} {i j : ℕ}

theorem Kept.has (h : Kept isize fsize nobody s) (h' : Kept isize fsize nobody t) (j : ℕ) : t.v.Has j ↔ s.v.Has j := by
  have hall := ninodes_congr (h'.sound.accounts.isize_eq.trans h.sound.accounts.isize_eq.symm)
  rw [Volume.Has, Volume.Has, hall]

theorem Kept.itod_lt (h : Kept isize fsize nobody s) (hj : s.v.Has j) : SUPERB < itod j ∧ itod j < isize := by
  have hmem := itod_mem hj.1 hj.2
  rw [h.sound.accounts.isize_eq] at hmem
  exact hmem

theorem dinode_congr (h : w.view (itod i) = v.view (itod i)) : w.dinode i = v.dinode i := by
  rw [Volume.dinode, Volume.dinode, h]

theorem not_spare_of_mem (hip : ip ∈ v.inode) : ¬ v.Spare ip.iNumber := fun hspare ↦ hspare.2.2 ip hip rfl

theorem spare_replace (hspare : ¬ v.Spare ip.iNumber) (j : ℕ) : (v.replace ip).Spare j ↔ v.Spare j := by
  by_cases hj : j = ip.iNumber
  · rw [hj]
    exact iff_of_false (not_spare_of_mem List.mem_cons_self) hspare
  · refine and_congr_right fun _ ↦ and_congr_right fun _ ↦ ⟨fun hnone p hp heq ↦ ?_, fun hnone p hp heq ↦ ?_⟩
    · have hne : p.iNumber ≠ ip.iNumber := heq ▸ hj
      exact hnone p (List.mem_cons_of_mem _ (List.mem_filter.mpr ⟨hp, decide_eq_true hne⟩)) heq
    · rcases List.mem_cons.mp hp with rfl | hp
      · exact hj heq.symm
      · exact hnone p (List.mem_of_mem_filter hp) heq

theorem spare_drop (hmode : v.diMode i ≠ 0) (j : ℕ) : (v.drop i).Spare j ↔ v.Spare j := by
  refine and_congr_right fun _ ↦ and_congr_right fun hzero ↦ ⟨fun hnone p hp heq ↦ ?_, fun hnone p hp ↦ ?_⟩
  · have hne : p.iNumber ≠ i := fun hi ↦ hmode ((heq.symm.trans hi) ▸ hzero)
    exact hnone p (List.mem_filter.mpr ⟨hp, decide_eq_true hne⟩) heq
  · exact hnone p (List.mem_of_mem_filter hp)

theorem Kept.replace (h : Kept isize fsize nobody ⟨v, owned⟩) (hhas : v.Has ip.iNumber) (hspare : ¬ v.Spare ip.iNumber) :
    Kept isize fsize nobody ⟨v.replace ip, owned⟩ := by
  refine @Kept.step isize fsize ⟨v, owned⟩ _ .other nobody h trivial
    (.other ⟨rfl, fun _ _ _ hclean ↦ ⟨rfl, hclean⟩, spare_replace hspare, fun p hp ↦ ?_⟩)
  rcases List.mem_cons.mp hp with rfl | hp
  · exact hhas
  · exact h.sound.table p (List.mem_of_mem_filter hp)

theorem Kept.drop (h : Kept isize fsize nobody ⟨v, owned⟩) (hmode : v.diMode i ≠ 0) :
    Kept isize fsize nobody ⟨v.drop i, owned⟩ :=
  @Kept.step isize fsize ⟨v, owned⟩ _ .other nobody h trivial
    (.other ⟨rfl, fun _ _ _ hclean ↦ ⟨rfl, hclean⟩, spare_drop hmode,
      fun p hp ↦ h.sound.table p (List.mem_of_mem_filter hp)⟩)

theorem Kept.iupdat (h : Kept isize fsize nobody ⟨v, owned⟩) (hip : ip ∈ v.inode) :
    Kept isize fsize nobody ⟨v.iupdat ip, owned⟩ := by
  have hrange := itod_mem (h.sound.table ip hip).1 (h.sound.table ip hip).2
  refine @Kept.step isize fsize ⟨v, owned⟩ _ .other nobody h trivial
    (.other ⟨rfl, fun b hb _ hclean ↦ ⟨rfl, ?_⟩, fun j ↦ ?_, h.sound.table⟩)
  · have hout : b ≤ SUPERB ∨ sIsize v.fp ≤ b := hb
    have hne : b ≠ itod ip.iNumber := by omega
    exact (Function.update_of_ne hne ..).trans hclean
  · refine and_congr_right fun _ ↦ and_congr_left fun hnone ↦ ?_
    rw [diMode_iupdat_of_ne fun heq ↦ hnone ip hip heq.symm]

/-- Every file is as it was. -/
theorem Held.still (h : Held isize fsize nobody s) (hkept : Kept isize fsize nobody t) (htable : Table t.v)
    (howned : t.owned = s.owned) (hview : ∀ c ∈ s.owned, t.v.view c = s.v.view c)
    (hinode : ∀ j, s.v.Has j → t.v.inodeOf j = s.v.inodeOf j) :
    Held isize fsize nobody t ∧ t.v.object = s.v.object := by
  have hhas := h.kept.has hkept
  have hsame {j : ℕ} (hj : s.v.Has j) : (t.v.inodeOf j).blocks t.v.view = (s.v.inodeOf j).blocks s.v.view ∧
      (t.v.inodeOf j).object t.v.view = (s.v.inodeOf j).object s.v.view := by
    rw [hinode j hj]
    exact Inode.congr fun c hc ↦ hview c (h.mem hj hc)
  refine ⟨⟨hkept, h.small, htable, fun j hj ↦ ?_, fun j k hj hk hne ↦ ?_, fun b ↦ ?_, fun j hj ↦ ?_,
    (hhas ROOTINO).mpr h.root.1, hinode ROOTINO h.root.1 ▸ h.root.2⟩, funext fun j ↦ ?_⟩
  · rw [hhas] at hj
    rw [(hsame hj).1]
    exact h.nodup j hj
  · rw [hhas] at hj hk
    rw [(hsame hj).1, (hsame hk).1]
    exact h.apart j k hj hk hne
  · rw [howned, h.owned]
    refine exists_congr fun j ↦ ?_
    rw [hhas]
    refine and_congr_right fun hj ↦ ?_
    rw [(hsame hj).1]
  · rw [hhas] at hj
    rw [hinode j hj]
    exact h.empty j hj
  · unfold Volume.object
    by_cases hj : s.v.Has j
    · rw [(hsame hj).2, hinode j hj]
      exact if_congr (and_congr_left fun _ ↦ hhas j) rfl rfl
    · rw [if_neg fun hand ↦ hj ((hhas j).mp hand.1), if_neg fun hand ↦ hj hand.1]

theorem object_of_mode (hi : v.Has i) (hmode : (v.inodeOf i).iMode ≠ 0) :
    v.object i = some ((v.inodeOf i).object v.view) := if_pos ⟨hi, hmode⟩

theorem Held.has_of_mem (h : Held isize fsize nobody s) (hip : ip ∈ s.v.inode) : s.v.Has ip.iNumber :=
  h.kept.sound.table ip hip

theorem Held.object_of_mem (h : Held isize fsize nobody s) (hip : ip ∈ s.v.inode) :
    s.v.object ip.iNumber = some (ip.object s.v.view) := by
  have hsettled := inodeOf_of_mem h.table.numbers hip
  rw [object_of_mode (h.has_of_mem hip) (by rw [hsettled]; exact h.table.mode ip hip), hsettled]
  rfl

/-- The blocks of a file in core. -/
theorem Held.file (h : Held isize fsize nobody s) (hip : ip ∈ s.v.inode) (hblocks : ip.HasBlocks) :
    (s.v.inodeOf ip.iNumber).blocks s.v.view = fileTree s.v.view ip.toFile ∧ (fileTree s.v.view ip.toFile).Nodup ∧
      ∀ c ∈ fileTree s.v.view ip.toFile, c ∈ s.owned := by
  have hsettled := inodeOf_of_mem h.table.numbers hip
  have hsame : (s.v.inodeOf ip.iNumber).blocks s.v.view = fileTree s.v.view ip.toFile := by
    rw [hsettled]
    exact if_pos hblocks
  refine ⟨hsame, ?_, fun c hc ↦ h.mem (h.has_of_mem hip) (hsame.symm ▸ hc)⟩
  rw [← hsame]
  exact h.nodup ip.iNumber (h.has_of_mem hip)

end Keeping

section Still

variable {isize fsize : ℤ} {nobody owned : List ℤ} {s t : State} {v w : Volume} {ip : Inode} {i j : ℕ}

theorem Held.iget (h : Held isize fsize nobody ⟨v, owned⟩) (hi : v.Has i) (hmode : v.diMode i ≠ 0)
    (hnone : ∀ p ∈ v.inode, p.iNumber ≠ i) :
    Held isize fsize nobody ⟨v.replace (v.dinode i), owned⟩ ∧ (v.replace (v.dinode i)).object = v.object := by
  have hspare : ¬ v.Spare (v.dinode i).iNumber := fun hspare ↦ hmode hspare.2.1
  refine h.still (h.kept.replace hi hspare) (h.table.replace (fits_iexpand _ _ _) hmode fun _ ↦ rfl) rfl
    (fun _ _ ↦ rfl) fun j _ ↦ ?_
  by_cases hj : j = i
  · rw [hj, inodeOf_of_not_mem hnone]
    exact inodeOf_replace_self v (v.dinode i)
  · exact inodeOf_replace_of_ne hj v

theorem inodeOf_iupdat_of_ne (hj : j ≠ ip.iNumber) (v : Volume) : (v.iupdat ip).inodeOf j = v.inodeOf j :=
  inodeOf_congr rfl (dinode_iupdat_of_ne hj)

/-- `iput` for the last reference to an inode that has links. -/
def iputLast (v : Volume) (ip : Inode) : Volume := (if ip.due then v.iupdat ip else v).drop ip.iNumber

theorem Held.iputLast (h : Held isize fsize nobody ⟨v, owned⟩) (hip : ip ∈ v.inode) :
    Held isize fsize nobody ⟨iputLast v ip, owned⟩ ∧ (iputLast v ip).object = v.object := by
  have hmode := h.table.mode ip hip
  have hfits := h.table.fits ip hip
  have hsettled := inodeOf_of_mem h.table.numbers hip
  have hlow := h.kept.itod_lt (h.has_of_mem hip)
  unfold Filsys.iputLast
  split
  · rename_i hdue
    have hstored : (v.iupdat ip).dinode ip.iNumber = ip.settled := dinode_iupdat_self hfits v
    have hdisk : (v.iupdat ip).diMode ip.iNumber ≠ 0 := by
      rw [diMode_iupdat_self, Nat.mod_eq_of_lt hfits.mode]
      exact hmode
    have htable : Table ((v.iupdat ip).drop ip.iNumber) := by
      refine (h.table.drop ip.iNumber).congr rfl fun p hp ↦ ?_
      exact dinode_iupdat_of_ne (of_decide_eq_true (List.mem_filter.mp hp).2)
    refine h.still ((h.kept.iupdat hip).drop hdisk) htable rfl (fun c hc ↦ ?_) fun j _ ↦ ?_
    · have hrange := (h.kept.sound.owned_range c (List.mem_append_left _ hc)).1
      exact view_iupdat_of_ne (by omega)
    · by_cases hj : j = ip.iNumber
      · rw [hj, inodeOf_drop_self, hstored, hsettled]
      · rw [inodeOf_drop_of_ne hj, inodeOf_iupdat_of_ne hj]
  · rename_i hdue
    have hclean := h.table.clean ip hip (eq_false_of_ne_true hdue)
    have hdisk : v.diMode ip.iNumber ≠ 0 := by
      have hsame : v.diMode ip.iNumber = ip.iMode := congrArg Inode.iMode hclean
      rw [hsame]
      exact hmode
    refine h.still (h.kept.drop hdisk) (h.table.drop ip.iNumber) rfl (fun _ _ ↦ rfl) fun j _ ↦ ?_
    by_cases hj : j = ip.iNumber
    · rw [hj, inodeOf_drop_self, hsettled]
      exact settled_of_clean hclean
    · exact inodeOf_drop_of_ne hj v

theorem dinode_foldl_of_ne {l : List Inode} (hj : ∀ p ∈ l, j ≠ p.iNumber) (v : Volume) :
    (l.foldl (fun w ip ↦ w.iupdat ip) v).dinode j = v.dinode j := by
  induction l generalizing v with
  | nil => rfl
  | cons p l ih =>
    rw [List.foldl_cons, ih fun q hq ↦ hj q (List.mem_cons_of_mem _ hq)]
    exact dinode_iupdat_of_ne (hj p List.mem_cons_self)

theorem dinode_foldl_of_mem {l : List Inode} (hnumbers : (l.map Inode.iNumber).Nodup) (hip : ip ∈ l) (hfits : ip.Fits)
    (v : Volume) : (l.foldl (fun w ip ↦ w.iupdat ip) v).dinode ip.iNumber = ip.settled := by
  induction l generalizing v with
  | nil => exact absurd hip List.not_mem_nil
  | cons p l ih =>
    obtain ⟨hp, hl⟩ := List.nodup_cons.mp hnumbers
    rw [List.foldl_cons]
    rcases List.mem_cons.mp hip with rfl | hip
    · have hne (q : Inode) (hq : q ∈ l) : ip.iNumber ≠ q.iNumber := fun heq ↦ hp (heq ▸ List.mem_map_of_mem hq)
      rw [dinode_foldl_of_ne hne]
      exact dinode_iupdat_self hfits v
    · exact ih hl hip _

theorem view_foldl_of_ne {l : List Inode} {c : ℤ} (hc : ∀ p ∈ l, c ≠ itod p.iNumber) (v : Volume) :
    (l.foldl (fun w ip ↦ w.iupdat ip) v).view c = v.view c := by
  induction l generalizing v with
  | nil => rfl
  | cons p l ih =>
    rw [List.foldl_cons, ih fun q hq ↦ hc q (List.mem_cons_of_mem _ hq)]
    exact view_iupdat_of_ne (hc p List.mem_cons_self)

theorem dinode_writeSuper (hj : v.Has j) (time : ℤ) : (writeSuper v time).dinode j = v.dinode j := by
  refine dinode_congr (view_writeSuper ?_ v time)
  exact (itod_mem hj.1 hj.2).1.ne'

theorem inode_update (v : Volume) (time : ℤ) : (update v time).inode = v.inode.map Inode.settled := by
  change (writeSuper v time).inode.map Inode.settled = _
  rw [inode_writeSuper]

theorem Table.dinode_update (h : Table v) (hip : ip ∈ v.inode) (hi : v.Has ip.iNumber) (time : ℤ) :
    (update v time).dinode ip.iNumber = ip.settled := by
  change (((writeSuper v time).inode.filter fun p ↦ p.due).foldl (fun w p ↦ w.iupdat p) (writeSuper v time)).dinode _ = _
  rw [inode_writeSuper]
  have hnumbers : ((v.inode.filter fun p ↦ p.due).map Inode.iNumber).Nodup :=
    h.numbers.sublist (List.filter_sublist.map _)
  by_cases hdue : ip.due = true
  · exact dinode_foldl_of_mem hnumbers (List.mem_filter.mpr ⟨hip, hdue⟩) (h.fits ip hip) _
  · have hne (p : Inode) (hp : p ∈ v.inode.filter fun p ↦ p.due) : ip.iNumber ≠ p.iNumber := by
      intro heq
      have hfind := find_inode h.numbers hip
      obtain ⟨hp, hpdue⟩ := List.mem_filter.mp hp
      rw [heq, find_inode h.numbers hp] at hfind
      exact hdue (Option.some.inj hfind ▸ hpdue)
    have hclean := h.clean ip hip (eq_false_of_ne_true hdue)
    rw [dinode_foldl_of_ne hne, dinode_writeSuper hi]
    exact settled_of_clean hclean

theorem dinode_update_of_ne (hj : v.Has j) (hnone : ∀ p ∈ v.inode, p.iNumber ≠ j) (time : ℤ) :
    (update v time).dinode j = v.dinode j := by
  change (((writeSuper v time).inode.filter fun p ↦ p.due).foldl (fun w p ↦ w.iupdat p) (writeSuper v time)).dinode _ = _
  rw [inode_writeSuper, dinode_foldl_of_ne fun p hp ↦ (hnone p (List.mem_of_mem_filter hp)).symm]
  exact dinode_writeSuper hj time

theorem Held.view_update (h : Held isize fsize nobody s) (time : ℤ) {c : ℤ} (hc : c ∈ s.owned) :
    (update s.v time).view c = s.v.view c := by
  have hrange := (h.kept.sound.owned_range c (List.mem_append_left _ hc)).1
  have hlarge := h.kept.sound.large
  change (((writeSuper s.v time).inode.filter fun p ↦ p.due).foldl (fun w p ↦ w.iupdat p) (writeSuper s.v time)).view c = _
  rw [inode_writeSuper, view_foldl_of_ne fun p hp ↦ ?_]
  · exact view_writeSuper (by omega) s.v time
  · have hlow := h.kept.itod_lt (h.has_of_mem (List.mem_of_mem_filter hp))
    omega

/-- After an update every inode in core is on the disk. -/
theorem Held.update (h : Held isize fsize nobody s) (time : ℤ) :
    Held isize fsize nobody ⟨update s.v time, s.owned⟩ ∧ (update s.v time).object = s.v.object := by
  have hkept : Kept isize fsize nobody ⟨Filsys.update s.v time, s.owned⟩ :=
    @Kept.step isize fsize s _ (.update time) nobody h.kept trivial (.update rfl)
  have hinode := inode_update s.v time
  have htable : Table (Filsys.update s.v time) := by
    refine ⟨?_, fun p hp ↦ ?_, fun p hp ↦ ?_, fun p hp _ ↦ ?_⟩
    · rw [hinode, List.map_map]
      exact h.table.numbers
    · rw [hinode] at hp
      obtain ⟨q, hq, rfl⟩ := List.mem_map.mp hp
      have hfits := h.table.fits q hq
      exact ⟨hfits.mode, hfits.nlink, hfits.uid, hfits.gid, hfits.size, hfits.addr, hfits.beyond⟩
    · rw [hinode] at hp
      obtain ⟨q, hq, rfl⟩ := List.mem_map.mp hp
      exact h.table.mode q hq
    · rw [hinode] at hp
      obtain ⟨q, hq, rfl⟩ := List.mem_map.mp hp
      exact h.table.dinode_update hq (h.has_of_mem hq) time
  refine h.still hkept htable rfl (fun c hc ↦ h.view_update time hc) fun j hj ↦ ?_
  obtain ⟨q, hq, rfl, heq⟩ | ⟨hnone, heq⟩ := inodeOf_cases s.v j
  · rw [heq]
    have hmem : q.settled ∈ (Filsys.update s.v time).inode := by
      rw [hinode]
      exact List.mem_map_of_mem hq
    exact @inodeOf_of_mem _ q.settled htable.numbers hmem
  · rw [heq, ← dinode_update_of_ne hj hnone time]
    refine inodeOf_of_not_mem fun p hp ↦ ?_
    rw [hinode] at hp
    obtain ⟨q, hq, rfl⟩ := List.mem_map.mp hp
    exact hnone q hq

theorem Held.inodeOf_update (h : Held isize fsize nobody s) (time : ℤ) (j : ℕ) :
    (Filsys.update s.v time).inodeOf j = (Filsys.update s.v time).dinode j := by
  obtain ⟨q, hq, rfl, heq⟩ | ⟨-, heq⟩ := inodeOf_cases (Filsys.update s.v time) j
  · rw [heq]
    rw [inode_update] at hq
    obtain ⟨p, hp, rfl⟩ := List.mem_map.mp hq
    exact (h.table.dinode_update hp (h.has_of_mem hp) time).symm
  · exact heq

theorem Held.quiet (h : Held isize fsize nobody s) (time : ℤ) : Quiet (Filsys.update s.v time) := by
  obtain ⟨hupdate, -⟩ := h.update time
  have hcore (p : Inode) (hp : p ∈ (Filsys.update s.v time).inode) : (Filsys.update s.v time).dinode p.iNumber = p := by
    refine hupdate.table.clean p hp ?_
    rw [inode_update] at hp
    obtain ⟨q, -, rfl⟩ := List.mem_map.mp hp
    rfl
  refine ⟨fun p hp ↦ ?_, fun _ ↦ rfl, (h.kept.sound.update time).2, fun hzero ↦ ?_⟩
  · have hsame : (Filsys.update s.v time).diMode p.iNumber = p.iMode := congrArg Inode.iMode (hcore p hp)
    rw [hsame]
    exact hupdate.table.mode p hp
  · obtain ⟨q, hq, hnumber, heq⟩ | ⟨hnone, heq⟩ := inodeOf_cases (Filsys.update s.v time) ROOTINO
    · have hsame : (Filsys.update s.v time).diMode q.iNumber = q.iMode := congrArg Inode.iMode (hcore q hq)
      rw [hnumber, hzero] at hsame
      exact hupdate.table.mode q hq hsame.symm
    · exact hupdate.root.2 ((congrArg Inode.iMode heq).trans hzero)

/-- The file system is mounted anew after an update. -/
theorem Held.iinit (h : Held isize fsize nobody s) (time : ℤ) (stale : Buffer) :
    Held isize fsize nobody ⟨Filsys.iinit stale (Filsys.update s.v time).disk, s.owned⟩ ∧
      (Filsys.iinit stale (Filsys.update s.v time).disk).object = s.v.object := by
  obtain ⟨hupdate, hobject⟩ := h.update time
  have hquiet := h.quiet time
  have hview := hquiet.view_iinit stale
  have hkept : Kept isize fsize nobody ⟨Filsys.iinit stale (Filsys.update s.v time).disk, s.owned⟩ :=
    ⟨hupdate.kept.sound.iinit hquiet stale, h.kept.apart⟩
  have hdinode (j : ℕ) : (Filsys.iinit stale (Filsys.update s.v time).disk).dinode j = (Filsys.update s.v time).dinode j :=
    dinode_congr (hview _)
  have hinode : (Filsys.iinit stale (Filsys.update s.v time).disk).inode =
      [(Filsys.iinit stale (Filsys.update s.v time).disk).dinode ROOTINO] := rfl
  have htable : Table (Filsys.iinit stale (Filsys.update s.v time).disk) := by
    refine ⟨List.nodup_singleton _, fun p hp ↦ ?_, fun p hp ↦ ?_, fun p hp _ ↦ ?_⟩
    · rw [List.mem_singleton.mp hp]
      exact fits_iexpand _ _ _
    · rw [List.mem_singleton.mp hp]
      intro hzero
      refine hquiet.root ?_
      rw [← diMode_congr (hview _)]
      exact hzero
    · rw [List.mem_singleton.mp hp]
      rfl
  have hinodeOf (j : ℕ) (hj : (Filsys.update s.v time).Has j) :
      (Filsys.iinit stale (Filsys.update s.v time).disk).inodeOf j = (Filsys.update s.v time).inodeOf j := by
    have hnew : (Filsys.iinit stale (Filsys.update s.v time).disk).inodeOf j =
        (Filsys.iinit stale (Filsys.update s.v time).disk).dinode j := by
      obtain ⟨q, hq, hnumber, heq⟩ | ⟨-, heq⟩ := inodeOf_cases (Filsys.iinit stale (Filsys.update s.v time).disk) j
      · rw [hinode, List.mem_singleton] at hq
        have hroot : (Filsys.iinit stale (Filsys.update s.v time).disk).dinode ROOTINO = q := hq.symm
        rw [heq, ← hnumber, ← hroot]
        exact settled_dinode _ _
      · exact heq
    rw [hnew, hdinode, h.inodeOf_update]
  obtain ⟨hheld, hsame⟩ := hupdate.still hkept htable rfl (fun c _ ↦ hview c) hinodeOf
  exact ⟨hheld, hsame.trans hobject⟩

end Still

section Contents

variable {isize fsize : ℤ} {nobody owned : List ℤ} {s t : State} {v w u : Volume} {ip : Inode} {i j : ℕ} {f : File}
  {view : ℤ → Buffer}

theorem iAddr_mem {k : ℕ} (hk : k < NADDR) (hne : f.iAddr k ≠ 0) : f.iAddr k ∈ fileTree view f :=
  mem_fileTree hk (IndexTree.mem_nodes_self hne _)

theorem Kept.addr (h : Kept isize fsize nobody t) (hsmall : fsize ≤ 16777216) (howned : ∀ c ∈ fileTree view f, c ∈ t.owned)
    {k : ℕ} (hk : k < NADDR) : 0 ≤ f.iAddr k ∧ f.iAddr k < 16777216 := by
  by_cases hzero : f.iAddr k = 0
  · rw [hzero]
    decide
  · have hrange := h.sound.owned_range _ (List.mem_append_left _ (howned _ (iAddr_mem hk hzero)))
    have hlarge := h.sound.large
    rw [SUPERB] at hlarge
    omega

theorem Moves.dinode (hmoves : Moves s t) (h : Kept isize fsize nobody s) (hj : s.v.Has j) : t.v.dinode j = s.v.dinode j := by
  obtain ⟨-, -, hframe⟩ := hmoves.frame h
  obtain ⟨hdisk, hcache⟩ := hframe (itod j) (h.itod_lt hj).2
  refine dinode_congr ?_
  rw [Volume.view, Volume.view, hdisk, hcache]

/-- A file in core gets other blocks. -/
structure Refiled (s t : State) (ip : Inode) (f : File) : Prop where
  moves : Moves s t
  nodup : (fileTree t.v.view f).Nodup
  mem : ∀ c ∈ fileTree t.v.view f, c ∈ t.owned
  blocks : ∀ c ∈ fileTree t.v.view f, c ∈ s.owned → c ∈ fileTree s.v.view ip.toFile
  owned : ∀ c, c ∈ t.owned ↔ c ∈ fileTree t.v.view f ∨ c ∈ s.owned ∧ c ∉ fileTree s.v.view ip.toFile
  frame : ∀ c ∈ s.owned, c ∉ fileTree s.v.view ip.toFile → t.v.view c = s.v.view c
  size : -2147483648 ≤ f.iSize ∧ f.iSize < 2147483648
  beyond : ∀ k, NADDR ≤ k → f.iAddr k = 0

theorem Held.refile {due : Bool} (h : Held isize fsize nobody s) (hip : ip ∈ s.v.inode) (hblocks : ip.HasBlocks)
    (hrefiled : Refiled s t ip f) (hdue : due = false → f = ip.toFile ∧ ip.due = false) :
    Held isize fsize nobody ⟨t.v.replace { ip with toFile := f, due }, t.owned⟩ ∧
      (t.v.replace { ip with toFile := f, due }).object =
        Function.update s.v.object ip.iNumber (some (({ ip with toFile := f } : Inode).object t.v.view)) := by
  obtain ⟨ip', hip'⟩ : ∃ ip' : Inode, ip' = { ip with toFile := f, due } := ⟨_, rfl⟩
  have hnumber : ip'.iNumber = ip.iNumber := by rw [hip']
  have hkind : ip'.HasBlocks := by
    rw [hip']
    exact hblocks
  have hfile : ip'.toFile = f := by rw [hip']
  obtain ⟨hsame, -, -⟩ := h.file hip hblocks
  have hkept := h.kept.moves hrefiled.moves
  obtain ⟨hinode, -, -⟩ := hrefiled.moves.frame h.kept
  have hi := h.has_of_mem hip
  have hfits := h.table.fits ip hip
  have hfits' : ip'.Fits := by
    rw [hip']
    exact ⟨hfits.mode, hfits.nlink, hfits.uid, hfits.gid, hrefiled.size,
      fun k hk ↦ hkept.addr h.small.2 hrefiled.mem hk, hrefiled.beyond⟩
  have hmode' : ip'.iMode ≠ 0 := by
    rw [hip']
    exact h.table.mode ip hip
  have htable : Table t.v :=
    h.table.congr hinode fun p hp ↦ hrefiled.moves.dinode h.kept (h.has_of_mem hp)
  have hclean : ip'.due = false → t.v.dinode ip'.iNumber = ip' := by
    intro hdue'
    rw [hip'] at hdue'
    obtain ⟨hold, hdone⟩ := hdue hdue'
    have hback : ip' = ip := by
      rw [hip', hold]
      dsimp only at hdue'
      rw [hdue', ← hdone]
    rw [hback]
    exact (hrefiled.moves.dinode h.kept hi).trans (h.table.clean ip hip hdone)
  have hkept' : Kept isize fsize nobody ⟨t.v.replace ip', t.owned⟩ := by
    refine Kept.replace hkept ?_ ?_
    · rw [hnumber]
      exact (h.kept.has hkept _).mpr hi
    · rw [hnumber]
      exact not_spare_of_mem (hinode.symm ▸ hip)
  have hsettled : (t.v.replace ip').inodeOf ip.iNumber = ip'.settled := hnumber ▸ inodeOf_replace_self t.v ip'
  have hnew : ((t.v.replace ip').inodeOf ip.iNumber).blocks (t.v.replace ip').view = fileTree t.v.view f := by
    rw [hsettled, ← hfile]
    exact if_pos hkind
  have htouches : Touches s ⟨t.v.replace ip', t.owned⟩ ip.iNumber := by
    refine ⟨h.kept.has hkept', fun j hj hne ↦ ?_, fun c hc hmem ↦ ?_, ?_, fun c hc hmem ↦ ?_, fun c ↦ ?_, fun hno ↦ ?_,
      fun _ ↦ ?_⟩
    · rw [inodeOf_replace_of_ne (hnumber.symm ▸ hne)]
      exact inodeOf_congr hinode (hrefiled.moves.dinode h.kept hj)
    · rw [hsame] at hmem
      exact hrefiled.frame c hc hmem
    · rw [hnew]
      exact hrefiled.nodup
    · rw [hnew] at hc
      rw [hsame]
      exact hrefiled.blocks c hc hmem
    · rw [hnew, hsame]
      exact hrefiled.owned c
    · refine absurd ?_ hno
      rw [hsettled]
      exact hkind
    · rw [hsettled]
      exact hmode'
  obtain ⟨hheld, hothers⟩ := h.touch hi htouches hkept' (htable.replace hfits' hmode' hclean)
  rw [← hip']
  refine ⟨hheld, funext fun j ↦ ?_⟩
  by_cases hj : j = ip.iNumber
  · rw [hj, Function.update_self]
    have hi' : (t.v.replace ip').Has ip.iNumber := (htouches.has ip.iNumber).mpr hi
    rw [object_of_mode hi' (by rw [hsettled]; exact hmode'), hsettled, hip']
    rfl
  · rw [Function.update_of_ne hj]
    exact hothers j hj

/-- What `writei` leaves of a size. -/
theorem Wrote.size {off m : ℕ} {data rest : List Byte} {err : Option Errno} {g : File}
    (h : Wrote isize fsize nobody s g off data t f rest err m) :
    f.iSize = g.iSize ∨ ∃ k ≤ data.length, f.iSize = max g.iSize (off + k : ℕ) := by
  cases err with
  | none =>
    obtain ⟨hm, -, hsize⟩ := h.done rfl
    exact .inr ⟨m, hm.le, hsize⟩
  | some e =>
    cases e with
    | ENOSPC =>
      obtain ⟨-, -, hsize, -⟩ := h.nospace rfl
      by_cases hm : m = 0
      · rw [if_pos hm] at hsize
        exact .inl hsize
      · rw [if_neg hm] at hsize
        exact .inr ⟨m, h.le, hsize⟩
    | EFBIG =>
      obtain ⟨-, hlt, -, hsize⟩ := h.toobig rfl
      have hle : portion (off + m) (data.length - m) ≤ data.length - m := min_le_right _ _
      exact .inr ⟨m + portion (off + m) (data.length - m), by omega, hsize⟩

theorem Wrote.refiled {off m : ℕ} {data rest : List Byte} {err : Option Errno} (h : Held isize fsize nobody s)
    (hip : ip ∈ s.v.inode) (hblocks : ip.HasBlocks) (hoff : off + data.length < 2147483648)
    (hwrote : Wrote isize fsize nobody s ip.toFile off data t f rest err m) : Refiled s t ip f := by
  obtain ⟨-, hnodup, howned⟩ := h.file hip hblocks
  obtain ⟨hnodup', howned'⟩ := hwrote.extends'.own hnodup howned
  obtain ⟨new, heq, -, hapart, hnodes⟩ := hwrote.extends'.grows
  have hfits := h.table.fits ip hip
  refine ⟨hwrote.extends'.run, hnodup', howned', fun c hc hmem ↦ ?_, fun c ↦ ?_, hwrote.extends'.frame, ?_, fun k hk ↦ ?_⟩
  · exact (List.mem_append.mp (hnodes.subset hc)).resolve_left fun hnew ↦ hapart c hnew hmem
  · rw [heq, hnodes.mem_iff, List.mem_append, List.mem_append]
    by_cases hc : c ∈ fileTree s.v.view ip.toFile
    · exact iff_of_true (.inr (howned c hc)) (.inl (.inr hc))
    · rw [or_iff_left hc]
      exact or_congr_right (and_iff_left hc).symm
  · have hbounds := hfits.size
    rcases hwrote.size with hsize | ⟨k, hk, hsize⟩
    · rw [hsize]
      exact hbounds
    · rw [hsize]
      omega
  · rw [hwrote.extends'.beyond k hk]
    exact hfits.beyond k hk

theorem Held.truncated (h : Held isize fsize nobody s) (hip : ip ∈ s.v.inode) (hblocks : ip.HasBlocks)
    (htrunc : itrunc s.v ip.toFile = (u, f)) :
    Refiled s (s.without u (fileTree s.v.view ip.toFile)) ip f ∧ f = { iSize := 0, iAddr := fun _ ↦ 0 } := by
  obtain ⟨-, hnodup, howned⟩ := h.file hip hblocks
  have hfrees := itrunc_spec h.kept hnodup howned
  have hfirst : (itrunc s.v ip.toFile).1 = u := by rw [htrunc]
  have hsecond : (itrunc s.v ip.toFile).2 = f := by rw [htrunc]
  rw [hfirst] at hfrees
  have hempty (w : ℤ → Buffer) : fileTree w f = [] := hsecond ▸ fileTree_itrunc w s.v ip.toFile
  refine ⟨⟨hfrees.run, ?_, fun c hc ↦ ?_, fun c hc ↦ ?_, fun c ↦ ?_, hfrees.frame, ?_, fun k _ ↦ ?_⟩, hsecond.symm⟩
  · rw [hempty]
    exact List.nodup_nil
  · rw [hempty] at hc
    exact absurd hc List.not_mem_nil
  · rw [hempty] at hc
    exact absurd hc List.not_mem_nil
  · rw [hempty, mem_without, or_iff_right List.not_mem_nil]
  · rw [← hsecond]
    exact ⟨show (-2147483648 : ℤ) ≤ 0 by decide, show (0 : ℤ) < 2147483648 by decide⟩
  · rw [← hsecond]
    rfl

/-- The object of a file without blocks. -/
theorem fileByte_empty (view : ℤ → Buffer) (size : ℤ) : fileByte view ⟨size, fun _ ↦ 0⟩ = fun _ ↦ 0 := by
  funext off
  have hzero : blockContents view ⟨size, fun _ ↦ 0⟩ (off / BSIZE) = cleared := by
    cases hslot : slot (off / BSIZE) with
    | none => exact blockContents_of_large hslot
    | some t =>
      obtain ⟨i, sh, rest⟩ := t
      rw [blockContents_eq hslot]
      exact if_pos (IndexTree.find_null sh rest)
  rw [fileByte, hzero]
  rfl

theorem fileTree_empty (view : ℤ → Buffer) (size : ℤ) : fileTree view ⟨size, fun _ ↦ 0⟩ = [] :=
  List.flatMap_eq_nil_iff.mpr fun _ _ ↦ IndexTree.nodes_null _

end Contents

section Attributes

variable {isize fsize : ℤ} {nobody owned : List ℤ} {s t : State} {v w u : Volume} {ip ip' : Inode} {i j : ℕ} {f : File}

/-- The attributes of a file in core change, but not what kind of file it is. -/
theorem Held.change (h : Held isize fsize nobody ⟨v, owned⟩) (hip : ip ∈ v.inode) (hnumber : ip'.iNumber = ip.iNumber)
    (hfile : ip'.toFile = ip.toFile) (hkind : ip'.iMode &&& IFMT = ip.iMode &&& IFMT) (hmode : ip'.iMode ≠ 0)
    (hfits : ip'.Fits) (hdue : ip'.due = true) :
    Held isize fsize nobody ⟨v.replace ip', owned⟩ ∧
      (v.replace ip').object = Function.update v.object ip.iNumber (some (ip'.object v.view)) := by
  have hi : v.Has ip.iNumber := h.has_of_mem hip
  have hold := inodeOf_of_mem h.table.numbers hip
  have hsettled : (v.replace ip').inodeOf ip.iNumber = ip'.settled := hnumber ▸ inodeOf_replace_self v ip'
  have hhas : ip'.HasBlocks ↔ ip.HasBlocks := by
    unfold Inode.HasBlocks
    rw [hkind]
  have hblocks : ((v.replace ip').inodeOf ip.iNumber).blocks v.view = (v.inodeOf ip.iNumber).blocks v.view := by
    rw [hsettled, hold]
    change (if ip'.HasBlocks then fileTree v.view ip'.toFile else []) = if ip.HasBlocks then fileTree v.view ip.toFile else []
    rw [hfile]
    exact if_congr hhas rfl rfl
  have hkept : Kept isize fsize nobody ⟨v.replace ip', owned⟩ :=
    Kept.replace h.kept (hnumber.symm ▸ hi) (hnumber.symm ▸ not_spare_of_mem hip)
  have htouches : Touches ⟨v, owned⟩ ⟨v.replace ip', owned⟩ ip.iNumber := by
    refine ⟨h.kept.has hkept, fun j _ hne ↦ inodeOf_replace_of_ne (hnumber.symm ▸ hne) v, fun _ _ _ ↦ rfl, ?_,
      fun c hc _ ↦ ?_, fun c ↦ ?_, fun hno ↦ ?_, fun _ ↦ ?_⟩
    · have hnodup : ((v.inodeOf ip.iNumber).blocks v.view).Nodup := h.nodup ip.iNumber hi
      change (((v.replace ip').inodeOf ip.iNumber).blocks v.view).Nodup
      rw [hblocks]
      exact hnodup
    · exact hblocks ▸ hc
    · change c ∈ owned ↔ c ∈ ((v.replace ip').inodeOf ip.iNumber).blocks v.view ∨ _
      rw [hblocks]
      by_cases hc : c ∈ (v.inodeOf ip.iNumber).blocks v.view
      · exact iff_of_true (h.mem hi hc) (.inl hc)
      · rw [or_iff_right hc]
        exact (and_iff_left hc).symm
    · have hempty := h.empty ip.iNumber hi
      change ¬ ((v.replace ip').inodeOf ip.iNumber).HasBlocks at hno
      change ((v.replace ip').inodeOf ip.iNumber).iSize = 0
      change ¬ (v.inodeOf ip.iNumber).HasBlocks → (v.inodeOf ip.iNumber).iSize = 0 at hempty
      rw [hold] at hempty
      rw [hsettled] at hno ⊢
      have hsize : ip.iSize = 0 := hempty fun hyes ↦ hno (hhas.mpr hyes)
      exact (congrArg File.iSize hfile).trans hsize
    · change ((v.replace ip').inodeOf ip.iNumber).iMode ≠ 0
      rw [hsettled]
      exact hmode
  obtain ⟨hheld, hothers⟩ := h.touch hi htouches hkept
    (h.table.replace hfits hmode fun hno ↦ absurd (hno.symm.trans hdue) Bool.false_ne_true)
  refine ⟨hheld, funext fun j ↦ ?_⟩
  by_cases hj : j = ip.iNumber
  · rw [hj, Function.update_self]
    have hi' : (v.replace ip').Has ip.iNumber := (htouches.has ip.iNumber).mpr hi
    rw [object_of_mode hi' (by rw [hsettled]; exact hmode), hsettled]
    rfl
  · rw [Function.update_of_ne hj]
    exact hothers j hj

theorem not_hasBlocks (h : ip.iMode = 0) : ¬ ip.HasBlocks := by
  unfold Inode.HasBlocks
  rw [h]
  decide

/-- What `ialloc` does when the totals are right. -/
theorem Held.ialloced {fuel : ℕ} {r : Option ℕ} (h : Held isize fsize nobody ⟨v, owned⟩) (hrun : ialloc v fuel = some (u, r)) :
    Ialloced v u r ∧ Kept isize fsize nobody ⟨u, owned⟩ := by
  obtain ⟨stack, hstack, -⟩ := h.kept.sound.accounts.blocks
  have hisize : sIsize v.fp = isize := h.kept.sound.accounts.isize_eq
  have hnumbered : v.Numbered := by
    intro hspare
    have hle := hspare.1.2
    have hsmall := h.small.1
    rw [Volume.ninodes, hisize, NIPB, SUPERB] at hle
    omega
  refine ⟨?_, @Kept.step isize fsize ⟨v, owned⟩ _ (.ialloc fuel) nobody h.kept hnumbered (.ialloc hrun)⟩
  have hmark : getfs v.fp = v.fp := getfs_eq hstack.le h.kept.sound.list.le
  rw [Filsys.ialloc, hmark] at hrun
  exact iallocLoop_spec h.kept.sound.list hnumbered hrun

theorem Held.full {fuel : ℕ} (h : Held isize fsize nobody ⟨v, owned⟩) (hrun : ialloc v fuel = some (u, none)) :
    Held isize fsize nobody ⟨u, owned⟩ ∧ u.object = v.object := by
  obtain ⟨hspec, hkept⟩ := h.ialloced hrun
  obtain ⟨ino, hr, -⟩ | ⟨-, hinode, -⟩ := hspec.result
  · exact absurd hr.symm (Option.some_ne_none ino)
  · have hview (c : ℤ) : u.view c = v.view c := by
      rw [Volume.view, Volume.view, hspec.disk, hspec.cache]
    have hdinode (k : ℕ) : u.dinode k = v.dinode k := dinode_congr (hview _)
    exact h.still hkept (h.table.congr hinode fun p _ ↦ hdinode p.iNumber) rfl (fun c _ ↦ hview c)
      fun k _ ↦ inodeOf_congr hinode (hdinode k)

/-- A new file without blocks. -/
theorem Held.maknode {fuel : ℕ} (h : Held isize fsize nobody ⟨v, owned⟩) (hrun : ialloc v fuel = some (u, some i))
    (hnumber : ip'.iNumber = i) (hsize : ip'.iSize = (v.dinode i).iSize) (hmode : ip'.iMode ≠ 0) (hfits : ip'.Fits)
    (hdue : ip'.due = true) (haddr : ip'.HasBlocks → ip'.iAddr = fun _ ↦ 0) :
    Held isize fsize nobody ⟨u.replace ip', owned⟩ ∧ v.object i = none ∧ ip'.iSize = 0 ∧
      (u.replace ip').object = Function.update v.object i (some (ip'.object v.view)) := by
  obtain ⟨hspec, hkept⟩ := h.ialloced hrun
  obtain ⟨ino, hr, -, hspare, hinode, -⟩ | ⟨hr, -⟩ := hspec.result
  swap
  · exact absurd hr (Option.some_ne_none i)
  obtain rfl : i = ino := Option.some.inj hr
  have hview (c : ℤ) : u.view c = v.view c := by
    rw [Volume.view, Volume.view, hspec.disk, hspec.cache]
  have hi : v.Has i := hspare.1
  have hold : v.inodeOf i = v.dinode i := inodeOf_of_not_mem hspare.2.2
  have hzero : (v.inodeOf i).iMode = 0 := (h.table.spare_iff hi).mp hspare
  have hnone : ¬ (v.inodeOf i).HasBlocks := not_hasBlocks hzero
  have hnoblocks : (v.inodeOf i).blocks v.view = [] := if_neg hnone
  have hempty : ip'.iSize = 0 := by
    rw [hsize, ← hold]
    exact h.empty i hi hnone
  have hsettled : (u.replace ip').inodeOf i = ip'.settled := hnumber ▸ inodeOf_replace_self u ip'
  have hblocks : ((u.replace ip').inodeOf i).blocks u.view = [] := by
    rw [hsettled]
    change (if ip'.HasBlocks then fileTree u.view ip'.toFile else []) = []
    split
    · rename_i hyes
      have hfile : ip'.toFile = ⟨ip'.iSize, fun _ ↦ 0⟩ := congrArg (File.mk ip'.iSize) (haddr hyes)
      rw [hfile, fileTree_empty]
    · rfl
  have hmem (p : Inode) (hp : p ∈ (u.replace ip').inode) : p = ip' ∨ p ∈ v.inode := by
    rcases List.mem_cons.mp hp with rfl | hp
    · exact .inl rfl
    · obtain ⟨hp, hne⟩ := List.mem_filter.mp hp
      rw [hinode] at hp
      rcases List.mem_cons.mp hp with rfl | hp
      · exact absurd hnumber.symm (of_decide_eq_true hne)
      · exact .inr hp
  have hdinode (k : ℕ) : u.dinode k = v.dinode k := dinode_congr (hview _)
  have htable : Table (u.replace ip') := by
    refine ⟨?_, fun p hp ↦ ?_, fun p hp ↦ ?_, fun p hp hno ↦ ?_⟩
    · refine List.nodup_cons.mpr ⟨fun hin ↦ ?_, ?_⟩
      · obtain ⟨p, hp, heq⟩ := List.mem_map.mp hin
        exact of_decide_eq_true (List.mem_filter.mp hp).2 heq
      · rw [hinode]
        refine List.Nodup.sublist (List.filter_sublist.map _) (List.nodup_cons.mpr ⟨fun hin ↦ ?_, h.table.numbers⟩)
        obtain ⟨p, hp, heq⟩ := List.mem_map.mp hin
        exact hspare.2.2 p hp heq
    · rcases hmem p hp with rfl | hp
      · exact hfits
      · exact h.table.fits p hp
    · rcases hmem p hp with rfl | hp
      · exact hmode
      · exact h.table.mode p hp
    · rcases hmem p hp with rfl | hp
      · exact absurd (hno.symm.trans hdue) Bool.false_ne_true
      · exact (hdinode p.iNumber).trans (h.table.clean p hp hno)
  have hkept' : Kept isize fsize nobody ⟨u.replace ip', owned⟩ := by
    refine Kept.replace hkept (hnumber.symm ▸ (h.kept.has hkept i).mpr hi) fun hspare' ↦ ?_
    rw [hnumber] at hspare'
    exact hspare'.2.2 (v.dinode i).clear (hinode.symm ▸ List.mem_cons_self) rfl
  have htouches : Touches ⟨v, owned⟩ ⟨u.replace ip', owned⟩ i := by
    refine ⟨h.kept.has hkept', fun k _ hne ↦ ?_, fun c _ _ ↦ hview c, ?_, fun c hc _ ↦ ?_, fun c ↦ ?_, fun _ ↦ ?_, fun _ ↦ ?_⟩
    · change (u.replace ip').inodeOf k = v.inodeOf k
      rw [inodeOf_replace_of_ne (hnumber.symm ▸ hne)]
      have hfind : u.inode.find? (fun p ↦ p.iNumber = k) = v.inode.find? fun p ↦ p.iNumber = k := by
        rw [hinode]
        refine List.find?_cons_of_neg fun heq ↦ hne ?_
        exact (of_decide_eq_true heq : i = k).symm
      rw [Volume.inodeOf, Volume.inodeOf, hfind, hdinode]
    · exact hblocks.symm ▸ List.nodup_nil
    · exact absurd (hblocks ▸ hc : c ∈ []) List.not_mem_nil
    · change c ∈ owned ↔ c ∈ ((u.replace ip').inodeOf i).blocks u.view ∨ c ∈ owned ∧ c ∉ (v.inodeOf i).blocks v.view
      rw [hblocks, hnoblocks, or_iff_right List.not_mem_nil]
      exact (and_iff_left List.not_mem_nil).symm
    · change ((u.replace ip').inodeOf i).iSize = 0
      rw [hsettled]
      exact hempty
    · change ((u.replace ip').inodeOf i).iMode ≠ 0
      rw [hsettled]
      exact hmode
  obtain ⟨hheld, hothers⟩ := h.touch hi htouches hkept' htable
  refine ⟨hheld, if_neg fun hand ↦ hand.2 hzero, hempty, funext fun k ↦ ?_⟩
  by_cases hk : k = i
  · rw [hk, Function.update_self]
    have hi' : (u.replace ip').Has i := (htouches.has i).mpr hi
    rw [object_of_mode hi' (by rw [hsettled]; exact hmode), hsettled]
    have hsame : (u.replace ip').view = v.view := funext hview
    rw [hsame]
    rfl
  · rw [Function.update_of_ne hk]
    exact hothers k hk

/-- `iput` for the last reference to an inode. -/
def iput (v : Volume) (ip : Inode) : Volume :=
  if ip.iNlink ≤ 0 then
    if ip.HasBlocks then iputFree (itrunc v ip.toFile).1 { ip with toFile := (itrunc v ip.toFile).2 } else iputFree v ip
  else iputLast v ip

theorem iputFree_eq {fp : Superblock} (h : ifree v ip.iNumber = { v with fp }) :
    iputFree v ip = (({ v with fp } : Volume).iupdat { ip with iMode := 0 }).drop ip.iNumber := by
  rw [iputFree, h]
  rfl

/-- There is no file any more when its blocks are free and its inode is. -/
theorem Held.freed (h : Held isize fsize nobody s) (hip : ip ∈ s.v.inode) (hroot : ip.iNumber ≠ ROOTINO)
    (hmoves : Moves s t) (hnumber : ip'.iNumber = ip.iNumber) (hfits : ip'.Fits) (hsize : ip'.iSize = 0)
    (howned : ∀ c, c ∈ t.owned ↔ c ∈ s.owned ∧ c ∉ (s.v.inodeOf ip.iNumber).blocks s.v.view)
    (hframe : ∀ c ∈ s.owned, c ∉ (s.v.inodeOf ip.iNumber).blocks s.v.view → t.v.view c = s.v.view c)
    (hroom : sNinode t.v.fp < NICINOD ∨ sFmod t.v.fp ≠ 0) :
    Held isize fsize nobody ⟨iputFree t.v ip', t.owned⟩ ∧
      (iputFree t.v ip').object = Function.update s.v.object ip.iNumber none := by
  have hi := h.has_of_mem hip
  have hkept := h.kept.moves hmoves
  obtain ⟨hinode, -, -⟩ := hmoves.frame h.kept
  have hi' : t.v.Has ip.iNumber := (h.kept.has hkept _).mpr hi
  have hninodes : t.v.ninodes ≤ 65528 := by
    have hsmall := h.small.1
    rw [Volume.ninodes, hkept.sound.accounts.isize_eq, NIPB, SUPERB]
    omega
  have hlt : ip'.iNumber < 65536 := by
    have hle := hi'.2
    omega
  have hcount : t.v.spares.card + 1 < 65536 := by
    have hcard : t.v.spares.card ≤ (Finset.range (t.v.ninodes + 1)).card := Finset.card_filter_le _ _
    rw [Finset.card_range] at hcard
    omega
  have hallocated : t.v.Allocated ip'.iNumber := by
    rw [hnumber]
    exact ⟨hi', not_spare_of_mem (hinode.symm ▸ hip)⟩
  have hkept' : Kept isize fsize nobody ⟨iputFree t.v ip', t.owned⟩ :=
    ⟨hkept.sound.iputFree hallocated hlt hroom hcount, hkept.apart⟩
  obtain ⟨stack, hstack, -⟩ := hkept.sound.accounts.blocks
  obtain ⟨fp, hfree, -⟩ := ifree_spec (getfs_eq hstack.le hkept.sound.list.le) hkept.sound.unlocked.2.1
    hkept.sound.list.nonneg hkept.sound.list.le hlt
  have hform := iputFree_eq hfree
  have hzero : ({ ip' with iMode := 0 } : Inode).Fits :=
    ⟨show 0 < 65536 by decide, hfits.nlink, hfits.uid, hfits.gid, hfits.size, hfits.addr, hfits.beyond⟩
  have hdinode {j : ℕ} (hj : s.v.Has j) (hne : j ≠ ip.iNumber) : (iputFree t.v ip').dinode j = s.v.dinode j := by
    rw [hform]
    have hother : (({ t.v with fp } : Volume).iupdat { ip' with iMode := 0 }).dinode j = ({ t.v with fp } : Volume).dinode j :=
      @dinode_iupdat_of_ne { t.v with fp } j { ip' with iMode := 0 } (hnumber.symm ▸ hne)
    exact hother.trans (hmoves.dinode h.kept hj)
  have hview {c : ℤ} (hc : c ∈ s.owned) : (iputFree t.v ip').view c = t.v.view c := by
    rw [hform]
    have hlow := (h.kept.sound.owned_range c (List.mem_append_left _ hc)).1
    have hblock := h.kept.itod_lt hi
    refine @view_iupdat_of_ne { t.v with fp } c { ip' with iMode := 0 } ?_
    change c ≠ itod ip'.iNumber
    rw [hnumber]
    omega
  have hself : (iputFree t.v ip').inodeOf ip.iNumber = ({ ip' with iMode := 0 } : Inode).settled := by
    rw [hform, ← hnumber, inodeOf_drop_self]
    exact @dinode_iupdat_self { ip' with iMode := 0 } hzero { t.v with fp }
  have hnone : ¬ ((iputFree t.v ip').inodeOf ip.iNumber).HasBlocks := by
    rw [hself]
    exact not_hasBlocks rfl
  have hempty : ((iputFree t.v ip').inodeOf ip.iNumber).blocks (iputFree t.v ip').view = [] := if_neg hnone
  have hlist : (iputFree t.v ip').inode = (s.v.drop ip.iNumber).inode := by
    have hfilter : (iputFree t.v ip').inode = t.v.inode.filter fun p ↦ p.iNumber ≠ ip'.iNumber := by
      rw [hform]
      rfl
    rw [hfilter, hinode, hnumber]
    rfl
  have htable : Table (iputFree t.v ip') := by
    refine (h.table.drop ip.iNumber).congr hlist fun p hp ↦ ?_
    obtain ⟨hp, hne⟩ := List.mem_filter.mp hp
    exact hdinode (h.has_of_mem hp) (of_decide_eq_true hne)
  have htouches : Touches s ⟨iputFree t.v ip', t.owned⟩ ip.iNumber := by
    refine ⟨h.kept.has hkept', fun j hj hne ↦ ?_, fun c hc hmem ↦ (hview hc).trans (hframe c hc hmem), ?_, fun c hc _ ↦ ?_,
      fun c ↦ ?_, fun _ ↦ ?_, fun heq ↦ absurd heq hroot⟩
    · change (iputFree t.v ip').inodeOf j = s.v.inodeOf j
      have hdrop := inodeOf_drop_of_ne hne s.v
      rw [← hdrop]
      exact @inodeOf_congr (s.v.drop ip.iNumber) _ j hlist (hdinode hj hne)
    · exact hempty.symm ▸ List.nodup_nil
    · exact absurd (hempty ▸ hc : c ∈ []) List.not_mem_nil
    · change c ∈ t.owned ↔ c ∈ ((iputFree t.v ip').inodeOf ip.iNumber).blocks (iputFree t.v ip').view ∨ _
      rw [hempty, or_iff_right List.not_mem_nil]
      exact howned c
    · change ((iputFree t.v ip').inodeOf ip.iNumber).iSize = 0
      rw [hself]
      exact hsize
  obtain ⟨hheld, hothers⟩ := h.touch hi htouches hkept' htable
  refine ⟨hheld, funext fun j ↦ ?_⟩
  by_cases hj : j = ip.iNumber
  · rw [hj, Function.update_self]
    refine if_neg fun hand ↦ hand.2 ?_
    rw [hself]
    rfl
  · rw [Function.update_of_ne hj]
    exact hothers j hj

theorem settled_blocks (view : ℤ → Buffer) (ip : Inode) : ip.settled.blocks view = ip.blocks view := rfl

/-- The last reference to a file without links. The list of free inodes must have room, or the super block be marked,
which the file's blocks do. -/
theorem Held.iput (h : Held isize fsize nobody s) (hip : ip ∈ s.v.inode) (hroot : ip.iNumber ≠ ROOTINO)
    (hroom : sNinode s.v.fp < NICINOD ∨ sFmod s.v.fp ≠ 0 ∨ ip.blocks s.v.view ≠ []) (hnlink : ip.iNlink ≤ 0) :
    Held isize fsize nobody ⟨Filsys.iput s.v ip, s.owned.filter (· ∉ ip.blocks s.v.view)⟩ ∧
      (Filsys.iput s.v ip).object = Function.update s.v.object ip.iNumber none := by
  have hfits := h.table.fits ip hip
  have hsettled := inodeOf_of_mem h.table.numbers hip
  have hold : (s.v.inodeOf ip.iNumber).blocks s.v.view = ip.blocks s.v.view := by
    rw [hsettled]
    exact settled_blocks s.v.view ip
  unfold Filsys.iput
  rw [if_pos hnlink]
  by_cases hblocks : ip.HasBlocks
  · rw [if_pos hblocks]
    obtain ⟨hsame, -, howned⟩ := h.file hip hblocks
    rcases htrunc : itrunc s.v ip.toFile with ⟨u, f⟩
    obtain ⟨hrefiled, hempty⟩ := h.truncated hip hblocks htrunc
    dsimp only
    have hself : fileTree s.v.view ip.toFile = ip.blocks s.v.view := hsame.symm.trans hold
    rw [hself] at hrefiled hsame howned
    have hmoves := hrefiled.moves
    have hroom' : sNinode u.fp < NICINOD ∨ sFmod u.fp ≠ 0 := by
      obtain ⟨-, hkeeps, -⟩ := hmoves.frame h.kept
      have hninode : sNinode u.fp = sNinode s.v.fp := short_congr (hkeeps 208 (by decide)) (hkeeps 209 (by decide))
      obtain hone | ⟨hfmod, hall⟩ := hmoves.marked h.kept
      · have hone : sFmod u.fp = 1 := hone
        rw [hone]
        exact .inr (by decide)
      · have hfmod : sFmod u.fp = sFmod s.v.fp := hfmod
        rw [hninode, hfmod]
        refine hroom.imp_right fun hor ↦ hor.resolve_right fun hne ↦ ?_
        obtain ⟨c, hc⟩ := List.exists_mem_of_ne_nil _ hne
        exact (mem_without.mp (hall.symm ▸ howned c hc)).2 hc
    have hsize : f.iSize = 0 := congrArg File.iSize hempty
    have haddr (k : ℕ) : f.iAddr k = 0 := congrFun (congrArg File.iAddr hempty) k
    have hfits' : ({ ip with toFile := f } : Inode).Fits := by
      refine ⟨hfits.mode, hfits.nlink, hfits.uid, hfits.gid, hrefiled.size, fun k _ ↦ ?_, hrefiled.beyond⟩
      change 0 ≤ f.iAddr k ∧ f.iAddr k < 16777216
      rw [haddr]
      decide
    have howned' (c : ℤ) : c ∈ (s.without u (ip.blocks s.v.view)).owned ↔
        c ∈ s.owned ∧ c ∉ (s.v.inodeOf ip.iNumber).blocks s.v.view := by
      rw [hold]
      exact mem_without
    have hframe (c : ℤ) (hc : c ∈ s.owned) (hmem : c ∉ (s.v.inodeOf ip.iNumber).blocks s.v.view) :
        u.view c = s.v.view c := by
      rw [hold] at hmem
      exact hrefiled.frame c hc (hself.symm ▸ hmem)
    have hfreed := @Held.freed isize fsize nobody s _ ip { ip with toFile := f } h hip hroot hmoves rfl hfits' hsize howned'
      hframe hroom'
    exact hfreed
  · have hnone : ip.blocks s.v.view = [] := if_neg hblocks
    have hall : s.owned.filter (· ∉ ip.blocks s.v.view) = s.owned :=
      List.filter_eq_self.mpr fun c _ ↦ decide_eq_true (hnone.symm ▸ List.not_mem_nil)
    have hsize : ip.iSize = 0 := by
      have hempty := h.empty ip.iNumber (h.has_of_mem hip)
      rw [hsettled] at hempty
      exact hempty hblocks
    rw [if_neg hblocks, hall]
    refine h.freed hip hroot .start rfl hfits hsize (fun c ↦ ?_) (fun _ _ _ ↦ rfl) ?_
    · rw [hold, hnone]
      exact (and_iff_left List.not_mem_nil).symm
    · exact hroom.imp_right fun hor ↦ hor.resolve_right fun hne ↦ hne hnone

end Attributes

end S8000.Filsys
