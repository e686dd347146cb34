import S8000.Filsys.Itrunc

/-! The files of a mounted file system: the inodes that are in core or on the disk, and their contents. -/

namespace S8000.Filsys

open Foundation Foundation.Bytes Foundation.Buffer

def IFMT : ℕ := 61440

section Inodes

/-- Regular files and directories keep their contents in blocks. -/
def Inode.HasBlocks (ip : Inode) : Prop := (ip.iMode &&& IFMT : ℕ) = IFREG ∨ (ip.iMode &&& IFMT : ℕ) = IFDIR

instance (ip : Inode) : Decidable ip.HasBlocks := inferInstanceAs (Decidable (_ ∨ _))

def Inode.blocks (view : ℤ → Buffer) (ip : Inode) : List ℤ := if ip.HasBlocks then fileTree view ip.toFile else []

def Inode.settled (ip : Inode) : Inode := { ip with due := false }

/-- An inode as it is in core, or else on the disk. -/
def Volume.inodeOf (v : Volume) (i : ℕ) : Inode := ((v.inode.find? fun ip ↦ ip.iNumber = i).getD (v.dinode i)).settled

def Volume.replace (v : Volume) (ip : Inode) : Volume := { v with inode := v.enter ip }

def Volume.drop (v : Volume) (i : ℕ) : Volume := { v with inode := v.inode.filter fun ip ↦ ip.iNumber ≠ i }

def Volume.Has (v : Volume) (i : ℕ) : Prop := 1 ≤ i ∧ i ≤ v.ninodes

instance (v : Volume) (i : ℕ) : Decidable (v.Has i) := inferInstanceAs (Decidable (_ ∧ _))

/-- The table of inodes in core. What is not due to go to the disk is there already. -/
structure Table (v : Volume) : Prop where
  numbers : (v.inode.map Inode.iNumber).Nodup
  fits : ∀ ip ∈ v.inode, ip.Fits
  mode : ∀ ip ∈ v.inode, ip.iMode ≠ 0
  clean : ∀ ip ∈ v.inode, ip.due = false → v.dinode ip.iNumber = ip

variable {v w : Volume} {ip : Inode} {i : ℕ}

theorem find_inode (h : (v.inode.map Inode.iNumber).Nodup) (hip : ip ∈ v.inode) :
    v.inode.find? (fun p ↦ p.iNumber = ip.iNumber) = some ip := by
  induction hlist : v.inode generalizing v with
  | nil =>
    rw [hlist] at hip
    exact absurd hip List.not_mem_nil
  | cons p l ih =>
    rw [hlist] at h hip
    obtain ⟨hp, hl⟩ := List.nodup_cons.mp h
    rcases List.mem_cons.mp hip with rfl | hip
    · exact List.find?_cons_of_pos (decide_eq_true rfl)
    · have hne : p.iNumber ≠ ip.iNumber := fun heq ↦ hp (heq ▸ List.mem_map_of_mem hip)
      rw [List.find?_cons_of_neg (by simpa using hne)]
      exact @ih { v with inode := l } hl hip rfl

theorem settled_dinode (v : Volume) (i : ℕ) : (v.dinode i).settled = v.dinode i := rfl

theorem settled_of_clean (h : v.dinode ip.iNumber = ip) : v.dinode ip.iNumber = ip.settled := by
  have hsettled := settled_dinode v ip.iNumber
  rw [h] at hsettled
  exact h.trans hsettled.symm

theorem inodeOf_of_mem (h : (v.inode.map Inode.iNumber).Nodup) (hip : ip ∈ v.inode) :
    v.inodeOf ip.iNumber = ip.settled := by
  rw [Volume.inodeOf, find_inode h hip, Option.getD_some]

theorem find_none (h : ∀ p ∈ v.inode, p.iNumber ≠ i) : v.inode.find? (fun p ↦ p.iNumber = i) = none :=
  List.find?_eq_none.mpr fun p hp ↦ by simpa using h p hp

theorem inodeOf_of_not_mem (h : ∀ p ∈ v.inode, p.iNumber ≠ i) : v.inodeOf i = v.dinode i := by
  rw [Volume.inodeOf, find_none h]
  rfl

theorem find_filter_of_ne {j : ℕ} (h : j ≠ i) (l : List Inode) :
    (l.filter fun p ↦ p.iNumber ≠ i).find? (fun p ↦ p.iNumber = j) = l.find? fun p ↦ p.iNumber = j := by
  rw [List.find?_filter]
  refine congrArg (fun q ↦ l.find? q) (funext fun p ↦ ?_)
  by_cases heq : p.iNumber = j
  · simp [heq, h]
  · simp [heq]

theorem inodeOf_replace_self (v : Volume) (ip : Inode) : (v.replace ip).inodeOf ip.iNumber = ip.settled := by
  have hfind : (v.replace ip).inode.find? (fun p ↦ p.iNumber = ip.iNumber) = some ip :=
    List.find?_cons_of_pos (decide_eq_true rfl)
  rw [Volume.inodeOf, hfind, Option.getD_some]

theorem inodeOf_replace_of_ne (h : i ≠ ip.iNumber) (v : Volume) : (v.replace ip).inodeOf i = v.inodeOf i := by
  have hfind : (v.replace ip).inode.find? (fun p ↦ p.iNumber = i) = v.inode.find? fun p ↦ p.iNumber = i := by
    refine (List.find?_cons_of_neg ?_).trans (find_filter_of_ne h v.inode)
    simpa using h.symm
  rw [Volume.inodeOf, hfind]
  rfl

theorem inodeOf_drop_of_ne {j : ℕ} (h : j ≠ i) (v : Volume) : (v.drop i).inodeOf j = v.inodeOf j := by
  have hfind : (v.drop i).inode.find? (fun p ↦ p.iNumber = j) = v.inode.find? fun p ↦ p.iNumber = j :=
    find_filter_of_ne h v.inode
  rw [Volume.inodeOf, hfind]
  rfl

theorem inodeOf_drop_self (v : Volume) (i : ℕ) : (v.drop i).inodeOf i = v.dinode i :=
  inodeOf_of_not_mem fun _ hp ↦ of_decide_eq_true (List.mem_filter.mp hp).2

/-- The inode depends on the table and on its own block. -/
theorem inodeOf_congr (hinode : w.inode = v.inode) (hdinode : w.dinode i = v.dinode i) : w.inodeOf i = v.inodeOf i := by
  rw [Volume.inodeOf, Volume.inodeOf, hinode, hdinode]

theorem inodeOf_cases (v : Volume) (i : ℕ) :
    (∃ ip ∈ v.inode, ip.iNumber = i ∧ v.inodeOf i = ip.settled) ∨
      (∀ p ∈ v.inode, p.iNumber ≠ i) ∧ v.inodeOf i = v.dinode i := by
  cases hfind : v.inode.find? fun p ↦ p.iNumber = i with
  | none =>
    have hnone (p : Inode) (hp : p ∈ v.inode) : p.iNumber ≠ i := by
      simpa using List.find?_eq_none.mp hfind p hp
    exact .inr ⟨hnone, inodeOf_of_not_mem hnone⟩
  | some ip =>
    have hnumber : ip.iNumber = i := by simpa using List.find?_some hfind
    refine .inl ⟨ip, List.mem_of_find?_eq_some hfind, hnumber, ?_⟩
    rw [Volume.inodeOf, hfind, Option.getD_some]

theorem Table.fits_inodeOf (h : Table v) (i : ℕ) : (v.inodeOf i).Fits := by
  obtain ⟨ip, hip, -, heq⟩ | ⟨-, heq⟩ := inodeOf_cases v i
  · rw [heq]
    have hfits := h.fits ip hip
    exact ⟨hfits.mode, hfits.nlink, hfits.uid, hfits.gid, hfits.size, hfits.addr, hfits.beyond⟩
  · rw [heq]
    exact fits_iexpand _ _ _

/-- An inode is spare when it has no mode. -/
theorem Table.spare_iff (h : Table v) (hi : v.Has i) : v.Spare i ↔ (v.inodeOf i).iMode = 0 := by
  obtain ⟨ip, hip, hnumber, heq⟩ | ⟨hnone, heq⟩ := inodeOf_cases v i
  · rw [heq]
    exact iff_of_false (fun hspare ↦ hspare.2.2 ip hip hnumber) (h.mode ip hip)
  · rw [heq]
    exact ⟨fun hspare ↦ hspare.2.1, fun hmode ↦ ⟨hi, hmode, hnone⟩⟩

theorem Table.replace (h : Table v) (hfits : ip.Fits) (hmode : ip.iMode ≠ 0)
    (hclean : ip.due = false → v.dinode ip.iNumber = ip) : Table (v.replace ip) := by
  have hmem (p : Inode) (hp : p ∈ (v.replace ip).inode) : p = ip ∨ p ∈ v.inode :=
    (List.mem_cons.mp hp).imp_right List.mem_of_mem_filter
  refine ⟨?_, fun p hp ↦ ?_, fun p hp ↦ ?_, fun p hp hdue ↦ ?_⟩
  · refine List.nodup_cons.mpr ⟨fun hnumber ↦ ?_, h.numbers.sublist (List.filter_sublist.map _)⟩
    obtain ⟨p, hp, heq⟩ := List.mem_map.mp hnumber
    exact of_decide_eq_true (List.mem_filter.mp hp).2 heq
  · rcases hmem p hp with rfl | hp
    · exact hfits
    · exact h.fits p hp
  · rcases hmem p hp with rfl | hp
    · exact hmode
    · exact h.mode p hp
  · rcases hmem p hp with rfl | hp
    · exact hclean hdue
    · exact h.clean p hp hdue

theorem Table.drop (h : Table v) (i : ℕ) : Table (v.drop i) :=
  ⟨h.numbers.sublist (List.filter_sublist.map _), fun p hp ↦ h.fits p (List.mem_of_mem_filter hp),
    fun p hp ↦ h.mode p (List.mem_of_mem_filter hp), fun p hp ↦ h.clean p (List.mem_of_mem_filter hp)⟩

theorem Table.congr (h : Table v) (hinode : w.inode = v.inode)
    (hdinode : ∀ ip ∈ v.inode, w.dinode ip.iNumber = v.dinode ip.iNumber) : Table w := by
  refine ⟨hinode ▸ h.numbers, hinode ▸ h.fits, hinode ▸ h.mode, fun ip hip hdue ↦ ?_⟩
  rw [hinode] at hip
  exact (hdinode ip hip).trans (h.clean ip hip hdue)

end Inodes

section Objects

/-- What there is to know about a file. -/
structure Object where
  mode : ℕ
  nlink : ℤ
  uid : ℤ
  gid : ℤ
  size : ℤ
  bytes : ℕ → Byte
  dev : ℤ

def Inode.object (view : ℤ → Buffer) (ip : Inode) : Object where
  mode := ip.iMode
  nlink := ip.iNlink
  uid := ip.iUid
  gid := ip.iGid
  size := ip.iSize
  bytes := if ip.HasBlocks then fileByte view ip.toFile else fun _ ↦ 0
  dev := if ip.HasBlocks then 0 else ip.iAddr 0

/-- The file that has an inode; there is none when the mode is zero. -/
def Volume.object (v : Volume) (i : ℕ) : Option Object :=
  if v.Has i ∧ (v.inodeOf i).iMode ≠ 0 then some ((v.inodeOf i).object v.view) else none

variable {view view' : ℤ → Buffer} {ip : Inode} {f : File}

theorem fileTree_congr (h : ∀ c ∈ fileTree view f, view' c = view c) : fileTree view' f = fileTree view f :=
  List.flatMap_congr fun _ hi ↦ tree_congr fun c hc ↦ h c (mem_fileTree (List.mem_range.mp hi) hc)

theorem blockContents_congr (h : ∀ c ∈ fileTree view f, view' c = view c) (bn : ℕ) :
    blockContents view' f bn = blockContents view f bn := by
  cases hslot : slot bn with
  | none => rw [blockContents_of_large hslot, blockContents_of_large hslot]
  | some t =>
    obtain ⟨i, sh, rest⟩ := t
    obtain ⟨hlt, hsh, -⟩ := slot_spec hslot
    rw [blockContents_eq hslot, blockContents_eq hslot, hsh]
    exact leafContents_congr (fun c hc ↦ h c (mem_fileTree hlt hc)) rest

theorem fileByte_congr (h : ∀ c ∈ fileTree view f, view' c = view c) : fileByte view' f = fileByte view f := by
  funext off
  rw [fileByte, fileByte, blockContents_congr h]

/-- Only the blocks of a file matter to it. -/
theorem Inode.congr (h : ∀ c ∈ ip.blocks view, view' c = view c) :
    ip.blocks view' = ip.blocks view ∧ ip.object view' = ip.object view := by
  unfold Inode.blocks Inode.object at *
  split
  · rename_i hblocks
    rw [if_pos hblocks] at h
    rw [fileTree_congr h, fileByte_congr h]
    exact ⟨rfl, rfl⟩
  · exact ⟨rfl, rfl⟩

end Objects

section Held

/-- A block belongs to one file at one place, and the blocks that files have are the ones that are owned. -/
structure Held (isize fsize : ℤ) (nobody : List ℤ) (s : State) : Prop where
  kept : Kept isize fsize nobody s
  small : isize ≤ 8193 ∧ fsize ≤ 16777216
  table : Table s.v
  nodup : ∀ i, s.v.Has i → ((s.v.inodeOf i).blocks s.v.view).Nodup
  apart : ∀ i j, s.v.Has i → s.v.Has j → i ≠ j →
    ((s.v.inodeOf i).blocks s.v.view).Disjoint ((s.v.inodeOf j).blocks s.v.view)
  owned : ∀ b, b ∈ s.owned ↔ ∃ i, s.v.Has i ∧ b ∈ (s.v.inodeOf i).blocks s.v.view
  empty : ∀ i, s.v.Has i → ¬ (s.v.inodeOf i).HasBlocks → (s.v.inodeOf i).iSize = 0
  root : s.v.Has ROOTINO ∧ (s.v.inodeOf ROOTINO).iMode ≠ 0

variable {isize fsize : ℤ} {nobody : List ℤ} {s t : State} {i : ℕ}

theorem Held.mem (h : Held isize fsize nobody s) (hi : s.v.Has i) {b : ℤ} (hb : b ∈ (s.v.inodeOf i).blocks s.v.view) :
    b ∈ s.owned :=
  (h.owned b).mpr ⟨i, hi, hb⟩

/-- What a step does that concerns one file. -/
structure Touches (s t : State) (i : ℕ) : Prop where
  has : ∀ j, t.v.Has j ↔ s.v.Has j
  other : ∀ j, s.v.Has j → j ≠ i → t.v.inodeOf j = s.v.inodeOf j
  frame : ∀ c ∈ s.owned, c ∉ (s.v.inodeOf i).blocks s.v.view → t.v.view c = s.v.view c
  nodup : ((t.v.inodeOf i).blocks t.v.view).Nodup
  blocks : ∀ c ∈ (t.v.inodeOf i).blocks t.v.view, c ∈ s.owned → c ∈ (s.v.inodeOf i).blocks s.v.view
  owned : ∀ c, c ∈ t.owned ↔
    c ∈ (t.v.inodeOf i).blocks t.v.view ∨ c ∈ s.owned ∧ c ∉ (s.v.inodeOf i).blocks s.v.view
  empty : ¬ (t.v.inodeOf i).HasBlocks → (t.v.inodeOf i).iSize = 0
  root : i = ROOTINO → (t.v.inodeOf i).iMode ≠ 0

theorem Held.other (h : Held isize fsize nobody s) (htouches : Touches s t i) (hi : s.v.Has i) {j : ℕ} (hj : s.v.Has j)
    (hne : j ≠ i) :
    (t.v.inodeOf j).blocks t.v.view = (s.v.inodeOf j).blocks s.v.view ∧
      (t.v.inodeOf j).object t.v.view = (s.v.inodeOf j).object s.v.view := by
  rw [htouches.other j hj hne]
  exact Inode.congr fun c hc ↦ htouches.frame c (h.mem hj hc) (h.apart j i hj hi hne hc)

/-- A step that concerns one file leaves the others as they are. -/
theorem Held.touch (h : Held isize fsize nobody s) (hi : s.v.Has i) (htouches : Touches s t i)
    (hkept : Kept isize fsize nobody t) (htable : Table t.v) :
    Held isize fsize nobody t ∧ ∀ j, j ≠ i → t.v.object j = s.v.object j := by
  have hother {j : ℕ} (hj : s.v.Has j) (hne : j ≠ i) := h.other htouches hi hj hne
  have hapart (j : ℕ) (hj : s.v.Has j) (hne : j ≠ i) :
      ((t.v.inodeOf i).blocks t.v.view).Disjoint ((t.v.inodeOf j).blocks t.v.view) := by
    intro c hc hc'
    rw [(hother hj hne).1] at hc'
    exact h.apart j i hj hi hne hc' (htouches.blocks c hc (h.mem hj hc'))
  refine ⟨⟨hkept, h.small, htable, fun j hj ↦ ?_, fun j k hj hk hne ↦ ?_, fun b ↦ ?_, fun j hj hblocks ↦ ?_,
    (htouches.has ROOTINO).mpr h.root.1, ?_⟩, fun j hne ↦ ?_⟩
  · rw [htouches.has] at hj
    by_cases hji : j = i
    · rw [hji]
      exact htouches.nodup
    · rw [(hother hj hji).1]
      exact h.nodup j hj
  · rw [htouches.has] at hj hk
    by_cases hji : j = i
    · rw [hji] at hne ⊢
      exact hapart k hk hne.symm
    · by_cases hki : k = i
      · rw [hki]
        exact (hapart j hj hji).symm
      · rw [(hother hj hji).1, (hother hk hki).1]
        exact h.apart j k hj hk hne
  · rw [htouches.owned, h.owned]
    constructor
    · rintro (hb | ⟨⟨j, hj, hb⟩, hnot⟩)
      · exact ⟨i, (htouches.has i).mpr hi, hb⟩
      · have hji : j ≠ i := fun heq ↦ hnot (heq ▸ hb)
        exact ⟨j, (htouches.has j).mpr hj, (hother hj hji).1.symm ▸ hb⟩
    · rintro ⟨j, hj, hb⟩
      rw [htouches.has] at hj
      by_cases hji : j = i
      · exact .inl (hji ▸ hb)
      · rw [(hother hj hji).1] at hb
        exact .inr ⟨⟨j, hj, hb⟩, h.apart j i hj hi hji hb⟩
  · rw [htouches.has] at hj
    by_cases hji : j = i
    · rw [hji] at hblocks ⊢
      exact htouches.empty hblocks
    · rw [htouches.other j hj hji] at hblocks ⊢
      exact h.empty j hj hblocks
  · by_cases hji : ROOTINO = i
    · rw [hji]
      exact htouches.root hji.symm
    · rw [htouches.other ROOTINO h.root.1 hji]
      exact h.root.2
  · unfold Volume.object
    by_cases hj : s.v.Has j
    · rw [(hother hj hne).2, htouches.other j hj hne]
      exact if_congr (and_congr_left fun _ ↦ htouches.has j) rfl rfl
    · rw [if_neg fun hor ↦ hj ((htouches.has j).mp hor.1), if_neg fun hor ↦ hj hor.1]

end Held

end S8000.Filsys
