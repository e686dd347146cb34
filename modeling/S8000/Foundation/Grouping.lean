import S8000.Foundation.Dict
import Mathlib.Data.List.Sort
import Mathlib.Data.List.Nodup
import Mathlib.Data.List.Range

namespace S8000.Foundation

namespace Dict

variable {β : Type}

/-- `d.setdefault(k, []).append(v)`. -/
def push (d : Dict ℕ (List β)) (e : ℕ × β) : Dict ℕ (List β) := d.set e.1 (d.getD e.1 [] ++ [e.2])

/-- Entries grouped by their keys, in the order in which they come. -/
def groups (entries : List (ℕ × β)) : Dict ℕ (List β) := entries.foldl push ∅

theorem getD_foldl_push (entries : List (ℕ × β)) (d : Dict ℕ (List β)) (k : ℕ) :
    (entries.foldl push d).getD k [] =
      d.getD k [] ++ (entries.filter (·.1 = k)).map Prod.snd := by
  induction entries generalizing d with
  | nil => simp
  | cons e entries ih =>
    rw [List.foldl_cons, ih, push, getD_set]
    by_cases h : e.1 = k
    · simp [h]
    · simp [h]

theorem getD_groups (entries : List (ℕ × β)) (k : ℕ) :
    (groups entries).getD k [] = (entries.filter (·.1 = k)).map Prod.snd :=
  getD_foldl_push entries ∅ k

theorem mem_getD_groups {entries : List (ℕ × β)} {k : ℕ} {v : β} :
    v ∈ (groups entries).getD k [] ↔ (k, v) ∈ entries := by
  rw [getD_groups, List.mem_map]
  constructor
  · rintro ⟨⟨k', v'⟩, h, rfl⟩
    obtain ⟨hmem, hk⟩ := List.mem_filter.mp h
    obtain rfl : k' = k := by simpa using hk
    exact hmem
  · intro h
    exact ⟨(k, v), List.mem_filter.mpr ⟨h, by simp⟩, rfl⟩

theorem mem_foldl_push (entries : List (ℕ × β)) (d : Dict ℕ (List β)) (k : ℕ) :
    k ∈ entries.foldl push d ↔ k ∈ d ∨ k ∈ entries.map Prod.fst := by
  induction entries generalizing d with
  | nil => simp
  | cons e entries ih =>
    rw [List.foldl_cons, ih, push, mem_set, List.map_cons, List.mem_cons]
    tauto

theorem mem_groups {entries : List (ℕ × β)} {k : ℕ} :
    k ∈ groups entries ↔ k ∈ entries.map Prod.fst := by
  rw [groups, mem_foldl_push]
  simp

end Dict

namespace Grouping

section Numbers

/-- Distinct numbers, with each one those below it, are an initial segment. -/
theorem perm_range_of_closed {l : List ℕ} (hnodup : l.Nodup) (hclosed : ∀ n ∈ l, ∀ m < n, m ∈ l) :
    l.Perm (List.range l.length) := by
  have hlt : ∀ n ∈ l, n < l.length := by
    intro n hn
    have hsub : List.range (n + 1) ⊆ l := by
      intro m hm
      rcases Nat.lt_or_eq_of_le (Nat.lt_succ_iff.mp (List.mem_range.mp hm)) with hm | rfl
      · exact hclosed n hn m hm
      · exact hn
    have hlen := (List.subperm_of_subset List.nodup_range hsub).length_le
    rw [List.length_range] at hlen
    exact hlen
  have hsub : l ⊆ List.range l.length := fun n hn ↦ List.mem_range.mpr (hlt n hn)
  exact (List.subperm_of_subset hnodup hsub).perm_of_length_le (by simp)

/-- As many numbers as the segment that they cover are that segment. -/
theorem perm_range_of_covers {l : List ℕ} (hcovers : ∀ n < l.length, n ∈ l) :
    l.Perm (List.range l.length) := by
  have hsub : List.range l.length ⊆ l := fun n hn ↦ hcovers n (List.mem_range.mp hn)
  exact ((List.subperm_of_subset List.nodup_range hsub).perm_of_length_le (by simp)).symm

theorem insertionSort_eq_range {l : List ℕ} {n : ℕ} (h : l.Perm (List.range n)) :
    l.insertionSort (· ≤ ·) = List.range n :=
  ((List.perm_insertionSort _ l).trans h).eq_of_pairwise' (List.pairwise_insertionSort _ l)
    List.pairwise_le_range

end Numbers

section Layout

variable {γ : Type}

/-- The entries of each group in the order of their numbers, the groups in the order of their keys. -/
def layout (r : ℕ × γ → ℕ × γ → Prop) [DecidableRel r] (d : Dict ℕ (List (ℕ × γ))) : List (List γ) :=
  (d.keys.insertionSort (· ≤ ·)).map fun k ↦ ((d.getD k []).insertionSort r).map Prod.snd

/-- What stands at a place of a list of lists. -/
def nth (files : List (List γ)) (i k : ℕ) : Option γ := files[i]?.bind (·[k]?)

/-- No group is missing below another, no entry below another of its group, and no entry is there
twice. -/
structure Contiguous (entries : List (ℕ × ℕ × γ)) : Prop where
  outer : ∀ i ∈ entries.map Prod.fst, ∀ j < i, j ∈ entries.map Prod.fst
  inner : ∀ i k, (i, k) ∈ entries.map (fun e ↦ (e.1, e.2.1)) →
    ∀ j < k, (i, j) ∈ entries.map (fun e ↦ (e.1, e.2.1))
  nodup : (entries.map fun e ↦ (e.1, e.2.1)).Nodup

/-- The numbers of the entries of a group. -/
def members (entries : List (ℕ × ℕ × γ)) (i : ℕ) : List ℕ :=
  ((Dict.groups entries).getD i []).map Prod.fst

theorem mem_members {entries : List (ℕ × ℕ × γ)} {i k : ℕ} :
    k ∈ members entries i ↔ (i, k) ∈ entries.map (fun e ↦ (e.1, e.2.1)) := by
  rw [members, List.mem_map, List.mem_map]
  constructor
  · rintro ⟨⟨k, p⟩, h, rfl⟩
    exact ⟨(i, k, p), Dict.mem_getD_groups.mp h, rfl⟩
  · rintro ⟨⟨i', k', p⟩, h, heq⟩
    obtain ⟨rfl, rfl⟩ := Prod.mk.inj heq
    exact ⟨(k', p), Dict.mem_getD_groups.mpr h, rfl⟩

theorem members_eq_map_filter (entries : List (ℕ × ℕ × γ)) (i : ℕ) :
    members entries i =
      ((entries.map fun e ↦ (e.1, e.2.1)).filter fun q ↦ q.1 = i).map Prod.snd := by
  rw [members, Dict.getD_groups, List.map_map, List.filter_map, List.map_map]
  rfl

/-- A group that has no repeated number in any key has none at all. -/
theorem nodup_iff_members (entries : List (ℕ × ℕ × γ)) :
    (entries.map fun e ↦ (e.1, e.2.1)).Nodup ↔ ∀ i, (members entries i).Nodup := by
  simp only [members_eq_map_filter]
  generalize (entries.map fun e ↦ (e.1, e.2.1)) = pairs
  constructor
  · intro h i
    refine (h.filter _).map_on ?_
    rintro ⟨a, k⟩ ha ⟨b, k'⟩ hb heq
    have ha' : a = i := by simpa using (List.mem_filter.mp ha).2
    have hb' : b = i := by simpa using (List.mem_filter.mp hb).2
    exact Prod.ext (ha'.trans hb'.symm) heq
  · intro h
    induction pairs with
    | nil => exact List.nodup_nil
    | cons q pairs ih =>
      refine List.nodup_cons.mpr ⟨?_, ih fun i ↦ ?_⟩
      · intro hq
        have hi := h q.1
        rw [List.filter_cons_of_pos (by simp), List.map_cons, List.nodup_cons] at hi
        exact hi.1 (List.mem_map.mpr ⟨q, List.mem_filter.mpr ⟨hq, by simp⟩, rfl⟩)
      · exact (h i).sublist ((List.Sublist.filter _ (List.sublist_cons_self q pairs)).map _)

variable (r : ℕ × γ → ℕ × γ → Prop) [DecidableRel r]

theorem nth_layout_of_range {entries : List (ℕ × ℕ × γ)} {n : ℕ}
    (hkeys : ((Dict.groups entries).keys).Perm (List.range n)) (i : ℕ) :
    (layout r (Dict.groups entries))[i]? =
      if i < n then some (((((Dict.groups entries).getD i []).insertionSort r)).map Prod.snd)
      else none := by
  rw [layout, insertionSort_eq_range hkeys, List.getElem?_map]
  split
  · rename_i hlt
    rw [List.getElem?_range hlt]
    rfl
  · rename_i hge
    rw [List.getElem?_eq_none (by simpa using hge)]
    rfl

/-- Entries that all stand at their numbers are contiguous. -/
theorem Contiguous.of_nth_layout {entries : List (ℕ × ℕ × γ)}
    (h : ∀ i k p, nth (layout r (Dict.groups entries)) i k = some p ↔ (i, k, p) ∈ entries) :
    Contiguous entries := by
  have hlen : (layout r (Dict.groups entries)).length = (Dict.groups entries).keys.length := by
    rw [layout, List.length_map, List.length_insertionSort]
  have hlt : ∀ i ∈ (Dict.groups entries).keys, i < (Dict.groups entries).keys.length := by
    intro i hi
    rw [Dict.mem_keys, Dict.mem_groups] at hi
    obtain ⟨⟨i, k, p⟩, hmem, rfl⟩ := List.mem_map.mp hi
    have hnth := (h i k p).mpr hmem
    rw [← hlen]
    by_contra hge
    rw [nth, List.getElem?_eq_none (by omega)] at hnth
    cases hnth
  have hkeys : ((Dict.groups entries).keys).Perm (List.range (Dict.groups entries).keys.length) :=
    (List.subperm_of_subset (Dict.groups entries).nodup_keys
      fun n hn ↦ List.mem_range.mpr (hlt n hn)).perm_of_length_le (by simp [Dict.keys])
  have hcover : ∀ i, ∀ n < (members entries i).length, n ∈ members entries i := by
    intro i n hn
    have hlenfile : (((Dict.groups entries).getD i []).insertionSort r).length =
        (members entries i).length := by
      rw [List.length_insertionSort, members, List.length_map]
    have hi : i < (Dict.groups entries).keys.length := by
      have hpos : 0 < (members entries i).length := by omega
      obtain ⟨k, hk⟩ := List.exists_mem_of_length_pos hpos
      rw [mem_members] at hk
      obtain ⟨e, he, heq⟩ := List.mem_map.mp hk
      refine hlt i ?_
      rw [Dict.mem_keys, Dict.mem_groups, ← (Prod.mk.inj heq).1]
      exact List.mem_map.mpr ⟨e, he, rfl⟩
    have hget : nth (layout r (Dict.groups entries)) i n =
        some ((((Dict.groups entries).getD i []).insertionSort r).get ⟨n, hlenfile ▸ hn⟩).2 := by
      rw [nth, nth_layout_of_range r hkeys, if_pos hi, Option.bind_some, List.getElem?_map,
        List.getElem?_eq_getElem (hlenfile ▸ hn)]
      rfl
    rw [mem_members]
    exact List.mem_map.mpr ⟨_, (h i n _).mp hget, rfl⟩
  have hmembers : ∀ i, (members entries i).Perm (List.range (members entries i).length) :=
    fun i ↦ perm_range_of_covers (hcover i)
  refine ⟨?_, ?_, (nodup_iff_members entries).mpr fun i ↦ (hmembers i).nodup_iff.mpr List.nodup_range⟩
  · intro i hi j hj
    rw [← Dict.mem_groups, ← Dict.mem_keys] at hi ⊢
    exact hkeys.mem_iff.mpr (List.mem_range.mpr (lt_trans hj (hlt i hi)))
  · intro i k hk j hj
    rw [← mem_members] at hk ⊢
    have hk' := List.mem_range.mp ((hmembers i).mem_iff.mp hk)
    exact hcover i j (lt_trans hj hk')

variable [Std.Total r] [IsTrans (ℕ × γ) r]

/-- Sorted entries with the numbers `0 … n - 1` stand at their numbers. -/
theorem getElem?_sorted (hr : ∀ a b, r a b → a.1 ≤ b.1) {l : List (ℕ × γ)} {n : ℕ}
    (hperm : (l.map Prod.fst).Perm (List.range n)) (k : ℕ) (p : γ) :
    ((l.insertionSort r).map Prod.snd)[k]? = some p ↔ (k, p) ∈ l := by
  have hsorted : (l.insertionSort r).map Prod.fst = List.range n := by
    refine List.Perm.eq_of_pairwise' (r := (· ≤ ·)) ?_ List.pairwise_le_range
      (((List.perm_insertionSort r l).map Prod.fst).trans hperm)
    exact List.pairwise_map.mpr ((List.pairwise_insertionSort r l).imp (hr _ _))
  have hat : ∀ (j : ℕ) (e : ℕ × γ), (l.insertionSort r)[j]? = some e → e.1 = j := by
    intro j e he
    have hj : ((l.insertionSort r).map Prod.fst)[j]? = some e.1 := by rw [List.getElem?_map, he]; rfl
    rw [hsorted] at hj
    obtain ⟨hlt, heq⟩ := List.getElem?_eq_some_iff.mp hj
    rw [List.getElem_range] at heq
    exact heq.symm
  rw [← List.mem_insertionSort r, List.getElem?_map, Option.map_eq_some_iff]
  constructor
  · rintro ⟨⟨j, q⟩, he, rfl⟩
    obtain rfl : j = k := hat k _ he
    exact List.mem_of_getElem? he
  · intro hmem
    obtain ⟨j, hj⟩ := List.getElem?_of_mem hmem
    obtain rfl : k = j := hat j _ hj
    exact ⟨(k, p), hj, rfl⟩

theorem Contiguous.nth_layout (hr : ∀ a b, r a b → a.1 ≤ b.1) {entries : List (ℕ × ℕ × γ)}
    (h : Contiguous entries) (i k : ℕ) (p : γ) :
    nth (layout r (Dict.groups entries)) i k = some p ↔ (i, k, p) ∈ entries := by
  have hkeys : ((Dict.groups entries).keys).Perm (List.range (Dict.groups entries).keys.length) := by
    refine perm_range_of_closed (Dict.groups entries).nodup_keys fun n hn m hm ↦ ?_
    rw [Dict.mem_keys, Dict.mem_groups] at hn ⊢
    exact h.outer n hn m hm
  have hmembers : (members entries i).Perm (List.range (members entries i).length) := by
    refine perm_range_of_closed ((nodup_iff_members entries).mp h.nodup i) fun n hn m hm ↦ ?_
    rw [mem_members] at hn ⊢
    exact h.inner i n hn m hm
  rw [nth, nth_layout_of_range r hkeys]
  split
  · rw [Option.bind_some, getElem?_sorted r hr hmembers, Dict.mem_getD_groups]
  · rename_i hge
    constructor
    · rintro ⟨⟩
    · intro hmem
      have hi : i ∈ (Dict.groups entries).keys := by
        rw [Dict.mem_keys, Dict.mem_groups]
        exact List.mem_map.mpr ⟨_, hmem, rfl⟩
      exact absurd (List.mem_range.mp (hkeys.mem_iff.mp hi)) hge

theorem nth_layout_iff_contiguous (hr : ∀ a b, r a b → a.1 ≤ b.1) (entries : List (ℕ × ℕ × γ)) :
    (∀ i k p, nth (layout r (Dict.groups entries)) i k = some p ↔ (i, k, p) ∈ entries) ↔
      Contiguous entries :=
  ⟨Contiguous.of_nth_layout r, fun h ↦ h.nth_layout r hr⟩

end Layout

end Grouping

end S8000.Foundation
