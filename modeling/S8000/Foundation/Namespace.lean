import Mathlib.Data.List.Basic
import Mathlib.Data.List.Induction

namespace S8000.Foundation.Namespace

variable {ι ν : Type}

/-- Follow the names of a path from a node. -/
def resolve (child : ι → ν → Option ι) (i : ι) : List ν → Option ι
  | [] => some i
  | n :: p => (child i n).bind (resolve child · p)

theorem resolve_append (child : ι → ν → Option ι) (i : ι) (p q : List ν) :
    resolve child i (p ++ q) = (resolve child i p).bind (resolve child · q) := by
  induction p generalizing i with
  | nil => rfl
  | cons n p ih =>
    rw [List.cons_append, resolve, resolve, Option.bind_assoc]
    exact Option.bind_congr fun k _ ↦ ih k

theorem resolve_concat (child : ι → ν → Option ι) (i : ι) (p : List ν) (n : ν) :
    resolve child i (p ++ [n]) = (resolve child i p).bind (child · n) := by
  rw [resolve_append]
  refine Option.bind_congr fun k _ ↦ ?_
  rw [resolve]
  cases child k n <;> rfl

theorem resolve_mono {child child' : ι → ν → Option ι}
    (h : ∀ i n k, child i n = some k → child' i n = some k) {p : List ν} {i k : ι}
    (hp : resolve child i p = some k) : resolve child' i p = some k := by
  induction p generalizing i with
  | nil => exact hp
  | cons n p ih =>
    obtain ⟨j, hj, hk⟩ := Option.bind_eq_some_iff.mp hp
    rw [resolve, h i n j hj]
    exact ih hk

/-- A path to an old node uses old names only, when new names lead to new nodes. -/
theorem resolve_reflect {child child' : ι → ν → Option ι} {old : ι → Prop} {p : List ν}
    (hnew : ∀ i n k, n ∈ p → child' i n = some k → old k → child i n = some k)
    (hold : ∀ i n k, child i n = some k → old i) {r k : ι} (hp : resolve child' r p = some k)
    (hk : old k) : resolve child r p = some k := by
  induction p using List.reverseRecOn generalizing k with
  | nil => exact hp
  | append_singleton p n ih =>
    rw [resolve_concat] at hp ⊢
    obtain ⟨j, hj, hjk⟩ := Option.bind_eq_some_iff.mp hp
    have hchild : child j n = some k := hnew j n k (by simp) hjk hk
    rw [ih (fun i m k hm ↦ hnew i m k (List.mem_append_left _ hm)) hj (hold j n k hchild)]
    exact hchild

section Leads

variable {edge : ι → ν → ι → Prop}

/-- A path of names from one node to another, where a name may lead to several nodes. -/
def Leads (edge : ι → ν → ι → Prop) (i : ι) : List ν → ι → Prop
  | [], j => i = j
  | n :: p, j => ∃ k, edge i n k ∧ Leads edge k p j

theorem leads_concat {i j : ι} {p : List ν} {n : ν} :
    Leads edge i (p ++ [n]) j ↔ ∃ k, Leads edge i p k ∧ edge k n j := by
  induction p generalizing i with
  | nil =>
    constructor
    · rintro ⟨k, hk, rfl⟩
      exact ⟨i, rfl, hk⟩
    · rintro ⟨k, rfl, hk⟩
      exact ⟨j, hk, rfl⟩
  | cons m p ih =>
    constructor
    · rintro ⟨l, hl, hp⟩
      obtain ⟨k, hlk, hk⟩ := ih.mp hp
      exact ⟨k, ⟨l, hl, hlk⟩, hk⟩
    · rintro ⟨k, ⟨l, hl, hlk⟩, hk⟩
      exact ⟨l, hl, ih.mpr ⟨k, hlk, hk⟩⟩

/-- When no inner node but the root is named twice, and the root not at all, an inner node has one path. -/
theorem leads_unique (inner : ι → Prop) {r : ι} (hinner : ∀ {i n k}, edge i n k → inner i)
    (hroot : ∀ {i n}, ¬ edge i n r)
    (honce : ∀ {k i n i' n'}, inner k → edge i n k → edge i' n' k → i = i' ∧ n = n') {p q : List ν} {k : ι}
    (hk : inner k) (hp : Leads edge r p k) (hq : Leads edge r q k) : p = q := by
  induction p using List.reverseRecOn generalizing q k with
  | nil =>
    obtain rfl : r = k := hp
    rcases List.eq_nil_or_concat q with rfl | ⟨q, n, rfl⟩
    · rfl
    · rw [List.concat_eq_append] at hq
      obtain ⟨i, -, hi⟩ := leads_concat.mp hq
      exact absurd hi hroot
  | append_singleton p n ih =>
    obtain ⟨i, hpi, hi⟩ := leads_concat.mp hp
    rcases List.eq_nil_or_concat q with rfl | ⟨q, m, rfl⟩
    · obtain rfl : r = k := hq
      exact absurd hi hroot
    · rw [List.concat_eq_append] at hq ⊢
      obtain ⟨j, hqj, hj⟩ := leads_concat.mp hq
      obtain ⟨rfl, rfl⟩ := honce hk hi hj
      rw [ih (hinner hi) hpi hqj]

end Leads

variable [DecidableEq ι] [DecidableEq ν]

/-- Make the name `n` in the node `d` lead to `v`, or to nothing. -/
def rebind (child : ι → ν → Option ι) (d : ι) (n : ν) (v : Option ι) (i : ι) (m : ν) : Option ι :=
  if i = d ∧ m = n then v else child i m

/-- In a node with one path, rebinding a name from one leaf to another changes one path. -/
theorem resolve_rebind {child : ι → ν → Option ι} {root d : ι} {p : List ν} {n : ν} {v : Option ι}
    (hd : resolve child root p = some d) (hp : ∀ q, resolve child root q = some d → q = p)
    (hold : ∀ k, child d n = some k → ∀ m, child k m = none)
    (hnew : ∀ k, v = some k → k ≠ d ∧ ∀ m, child k m = none) (q : List ν) :
    resolve (rebind child d n v) root q =
      if q = p ++ [n] then v else resolve child root q := by
  induction q using List.reverseRecOn with
  | nil => rw [if_neg (by simp)]; rfl
  | append_singleton q m ih =>
    rw [resolve_concat, ih]
    by_cases hq : q = p ++ [n]
    · -- below the rebound name there is nothing, before and after
      have hne : q ++ [m] ≠ p ++ [n] := fun h ↦ by simp [hq] at h
      have hbelow : resolve child root (q ++ [m]) = none := by
        rw [resolve_concat, hq, resolve_concat, hd, Option.bind_some]
        cases hc : child d n with
        | none => rfl
        | some k => exact hold k hc m
      rw [if_pos hq, if_neg hne, hbelow]
      cases hv : v with
      | none => rfl
      | some k =>
        obtain ⟨hkd, hk⟩ := hnew k hv
        rw [Option.bind_some, rebind, if_neg fun h ↦ hkd h.1, hk m]
    · rw [if_neg hq, resolve_concat]
      cases hr : resolve child root q with
      | none =>
        have hne : q ++ [m] ≠ p ++ [n] := by
          intro h
          obtain ⟨rfl, -⟩ := List.append_inj' h rfl
          rw [hd] at hr
          cases hr
        rw [if_neg hne]
        rfl
      | some i =>
        rw [Option.bind_some, Option.bind_some, rebind]
        by_cases hi : i = d
        · obtain rfl := hp q (hi ▸ hr)
          simp [hi]
        · have hne : q ++ [m] ≠ p ++ [n] := by
            intro h
            obtain ⟨rfl, -⟩ := List.append_inj' h rfl
            exact hi (Option.some.inj (hr.symm.trans hd))
          rw [if_neg fun h ↦ hi h.1, if_neg hne]

end S8000.Foundation.Namespace
