import S8000.Dump.AllPaths
import S8000.Restore.DumpManifest
import S8000.Restore.Names

namespace S8000.Restore

open Foundation Foundation.Bytes Foundation.Namespace V7
open Dump (Text Dinode Inodes Blocks Resolves direntsOf isDir isDot)

/-- A dump whose directories form a tree rooted at inode 2, with ASCII names that a line can hold. -/
structure Treelike (inodes : Inodes) (blocks : Blocks) : Prop where
  root : isDir inodes 2
  once : Dump.NamedOnce inodes blocks
  names {i k : ℕ} {n : Text} : Dump.Entry inodes blocks i n k →
    n ≠ [] ∧ ∀ c ∈ n, c.toNat < 128 ∧ c ≠ '\t' ∧ c ≠ '\n' ∧ c ≠ '/'
  distinct (i : ℕ) : ((direntsOf inodes blocks i).map Prod.snd).Nodup
  there {i k : ℕ} {n : Text} : Dump.Entry inodes blocks i n k → k ∈ inodes
  dot {i k : ℕ} : Dump.Entry inodes blocks i ['.'] k → k = i
  dotdot {i k : ℕ} : Dump.Entry inodes blocks i ['.', '.'] k →
    i = 2 ∧ k = 2 ∨ ∃ n, ¬ isDot n ∧ Dump.Entry inodes blocks k n i

/-- What can be reached from the root. -/
def Reached (inodes : Inodes) (blocks : Blocks) (p : List Text) (k : ℕ) : Prop :=
  Dump.Plain p ∧ Resolves inodes blocks p k

section Entries

variable {inodes : Inodes} {blocks : Blocks} {i k k' : ℕ} {n : Text} {p q : List Text}

/-- The inode of the first entry of a name. -/
def entryAt (inodes : Inodes) (blocks : Blocks) (i : ℕ) (n : Text) : Option ℕ :=
  ((direntsOf inodes blocks i).find? (·.2 = n)).map Prod.fst

/-- The inode that a path leads to. -/
def inoAt (inodes : Inodes) (blocks : Blocks) (p : List Text) : ℕ := (resolve (entryAt inodes blocks) 2 p).getD 0

theorem mem_entries {size : ℕ} {blocks : Dict ℕ Dump.Record} {e : ℕ × Text} (h : e ∈ Dump.entries size blocks) :
    e.2.length ≤ 14 ∧ '\x00' ∉ e.2 := by
  obtain ⟨lb, -, he⟩ := List.mem_flatMap.mp h
  split at he
  · cases he
  · rename_i b _
    obtain ⟨o, -, ho⟩ := List.mem_filterMap.mp he
    rw [Dump.direntAt] at ho
    split at ho
    · cases ho
    · rw [← Option.some.inj ho, Dump.decodeAscii]
      refine ⟨?_, fun hmem ↦ ?_⟩
      · rw [List.length_map, Dump.nameBytes]
        exact (List.takeWhile_prefix _).length_le.trans (by simp)
      · obtain ⟨c, hc, hnul⟩ := List.mem_map.mp hmem
        have hne : c ≠ 0 := by simpa using List.mem_takeWhile_imp hc
        split at hnul
        · rename_i hlt
          have hvalid : c.toNat.isValidChar := .inl (lt_trans hlt (by decide))
          have hzero := congrArg Char.toNat hnul
          rw [Char.ofNat, dif_pos hvalid] at hzero
          exact hne (BitVec.eq_of_toNat_eq hzero)
        · exact absurd hnul (by decide)

theorem length_name_le (h : Dump.Entry inodes blocks i n k) : n.length ≤ 14 := by
  obtain ⟨d, hd, hkind⟩ := Dump.mem_of_isDir h.isDir
  rw [Dump.Entry, Dump.direntsOf_eq hd hkind] at h
  exact (mem_entries h).1

namespace Treelike

variable (h : Treelike inodes blocks)
include h

theorem isComponent (he : Dump.Entry inodes blocks i n k) : Dump.IsComponent n where
  ne_nil := (h.names he).1
  slash hmem := ((h.names he).2 '/' hmem).2.2.2 rfl

theorem entry_unique (he : Dump.Entry inodes blocks i n k) (he' : Dump.Entry inodes blocks i n k') : k = k' :=
  (Prod.mk.inj (List.inj_on_of_nodup_map (h.distinct i) he he' rfl)).1

theorem entryAt_eq_some : entryAt inodes blocks i n = some k ↔ Dump.Entry inodes blocks i n k := by
  rw [entryAt, Option.map_eq_some_iff]
  constructor
  · rintro ⟨⟨k', n'⟩, hfind, rfl⟩
    have hn := List.find?_some hfind
    rw [decide_eq_true_eq] at hn
    exact hn ▸ List.mem_of_find?_eq_some hfind
  · intro he
    cases hfind : (direntsOf inodes blocks i).find? (·.2 = n) with
    | none => exact absurd (List.find?_eq_none.mp hfind _ he) (by simp)
    | some e =>
      have hn := List.find?_some hfind
      rw [decide_eq_true_eq] at hn
      exact ⟨e, rfl, h.entry_unique (hn ▸ List.mem_of_find?_eq_some hfind) he⟩

theorem resolves_iff : Resolves inodes blocks p k ↔ resolve (entryAt inodes blocks) 2 p = some k := by
  induction p using List.reverseRecOn generalizing k with
  | nil => exact (Option.some_inj (a := 2) (b := k)).symm
  | append_singleton p n ih =>
    rw [resolve_concat, Option.bind_eq_some_iff, Resolves, leads_concat]
    exact exists_congr fun i ↦ and_congr ih h.entryAt_eq_some.symm

theorem inoAt_eq (hp : Resolves inodes blocks p k) : inoAt inodes blocks p = k := by
  rw [inoAt, h.resolves_iff.mp hp, Option.getD_some]

theorem resolves_unique (hp : Resolves inodes blocks p k) (hp' : Resolves inodes blocks p k') : k = k' :=
  (h.inoAt_eq hp).symm.trans (h.inoAt_eq hp')

theorem mem_inodes (hp : Resolves inodes blocks p k) : k ∈ inodes := by
  rcases List.eq_nil_or_concat p with rfl | ⟨q, n, rfl⟩
  · obtain rfl : 2 = k := hp
    obtain ⟨d, hd, -⟩ := Dump.mem_of_isDir h.root
    exact Dict.mem_iff_get?_eq_some.mpr ⟨d, hd⟩
  · rw [List.concat_eq_append] at hp
    obtain ⟨i, -, he⟩ := leads_concat.mp hp
    exact h.there he

theorem isComponent_of_mem (hp : Resolves inodes blocks p k) (hn : n ∈ p) : Dump.IsComponent n := by
  obtain ⟨i, j, he⟩ := hp.mem hn
  exact h.isComponent he

theorem rootedPath_eq_absolute (hp : Resolves inodes blocks p k) : Dump.rootedPath ['/'] p = absolute p := by
  by_cases hne : p = []
  · rw [hne]
    rfl
  · rw [Dump.rootedPath_eq ['/'] hne fun n hn ↦ h.isComponent_of_mem hp hn]
    rfl

/-- The names come out of a path as they went in. -/
theorem components_absolute (hp : Reached inodes blocks p k) : components (absolute p) = p := by
  have hnames : ∀ n ∈ p, IsName n ∧ n.length ≤ 14 := by
    intro n hn
    obtain ⟨i, j, he⟩ := hp.2.mem hn
    have hc := h.isComponent he
    exact ⟨⟨hc.ne_nil, hc.slash, fun hdots ↦ hp.1 n hn (.inr hdots)⟩, length_name_le he⟩
  rw [Restore.components_absolute fun n hn ↦ (hnames n hn).1]
  exact (List.map_congr_left fun n hn ↦ List.take_of_length_le (hnames n hn).2).trans (List.map_id p)

theorem absolute_injective (hp : Reached inodes blocks p k) (hq : Reached inodes blocks q k')
    (heq : absolute p = absolute q) : p = q := by
  rw [← h.components_absolute hp, heq, h.components_absolute hq]

/-- A directory has one path. -/
theorem unique_path (hk : isDir inodes k) (hp : Reached inodes blocks p k) (hq : Reached inodes blocks q k) : p = q :=
  h.once.unique hk hp.1 hq.1 hp.2 hq.2

theorem mem_paths {path : Text} : path ∈ (Dump.buildAllPaths inodes blocks ['/']).getD k [] ↔
    ∃ p, path = absolute p ∧ Reached inodes blocks p k := by
  have hall := ((Dump.all_paths_resolve inodes blocks ['/'] fun i n j he ↦ h.isComponent he).2 h.once k).2.2 path
  rw [hall]
  constructor
  · rintro ⟨p, hpath, hplain, hk⟩
    refine ⟨p, ?_, hplain, hk⟩
    rw [← h.rootedPath_eq_absolute hk]
    exact Dump.eq_rootedPath_of_componentsBelow hpath fun n hn ↦ (h.isComponent_of_mem hk hn).ne_nil
  · rintro ⟨p, rfl, hplain, hk⟩
    refine ⟨p, ?_, hplain, hk⟩
    rw [← h.rootedPath_eq_absolute hk]
    exact Dump.componentsBelow_rootedPath ['/'] fun n hn ↦ h.isComponent_of_mem hk hn

end Treelike

end Entries

end S8000.Restore
