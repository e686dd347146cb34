import Mathlib.Data.List.Nodup
import Mathlib.Data.List.Perm.Basic
import Mathlib.Algebra.Order.Ring.Nat

/-! Trees whose nodes hold the names of the nodes below them, as the indirect blocks of a file. -/

namespace S8000.Foundation.IndexTree

section Definitions

variable {κ : Type*} [DecidableEq κ] (null : κ) (arity : ℕ) (child : κ → ℕ → κ)

/-- The leaf at an index, below a node that is `level` levels above the leaves. -/
def find : ℕ → κ → ℕ → κ
  | 0, b, _ => b
  | level + 1, b, i => if b = null then null else find level (child b (i / arity ^ level % arity)) i

def nodes : ℕ → κ → List κ
  | 0, b => if b = null then [] else [b]
  | level + 1, b => if b = null then [] else b :: (List.range arity).flatMap fun k ↦ nodes level (child b k)

end Definitions

section Joined

variable {α β : Type*}

/-- One part of a joined list grows. -/
theorem perm_flatMap_of_ne {f g : α → List β} {l : List α} {a : α} {new : List β} (hnodup : l.Nodup) (ha : a ∈ l)
    (hself : (g a).Perm (new ++ f a)) (hother : ∀ x ∈ l, x ≠ a → g x = f x) :
    (l.flatMap g).Perm (new ++ l.flatMap f) := by
  induction l with
  | nil => exact absurd ha List.not_mem_nil
  | cons x l ih =>
    obtain ⟨hx, hnodup⟩ := List.nodup_cons.mp hnodup
    rw [List.flatMap_cons, List.flatMap_cons]
    by_cases hxa : x = a
    · subst hxa
      have hsame : l.flatMap g = l.flatMap f := by
        refine List.flatMap_congr fun y hy ↦ hother y (List.mem_cons_of_mem _ hy) ?_
        rintro rfl
        exact hx hy
      rw [hsame, ← List.append_assoc]
      exact hself.append_right _
    · have hmem : a ∈ l := (List.mem_cons.mp ha).resolve_left (Ne.symm hxa)
      rw [hother x List.mem_cons_self hxa]
      have hrest := ih hnodup hmem fun y hy ↦ hother y (List.mem_cons_of_mem _ hy)
      refine (hrest.append_left (f x)).trans ?_
      rw [← List.append_assoc, ← List.append_assoc]
      exact List.perm_append_comm.append_right _

/-- What no repetition in a joined list says about its parts. -/
theorem nodup_flatMap_range {f : ℕ → List β} {n : ℕ} (h : ((List.range n).flatMap f).Nodup) :
    (∀ k < n, (f k).Nodup) ∧ ∀ k < n, ∀ k' < n, k ≠ k' → (f k).Disjoint (f k') := by
  obtain ⟨hall, hapart⟩ := List.nodup_flatMap.mp h
  have hordered : ∀ k < n, ∀ k' < n, k < k' → (f k).Disjoint (f k') := by
    intro k hk k' hk' hlt
    have hpair := List.pairwise_iff_getElem.mp hapart k k' (by simpa using hk) (by simpa using hk') hlt
    simpa using hpair
  refine ⟨fun k hk ↦ hall k (List.mem_range.mpr hk), fun k hk k' hk' hne ↦ ?_⟩
  rcases Nat.lt_or_gt_of_ne hne with hlt | hlt
  · exact hordered k hk k' hk' hlt
  · exact fun c hc hc' ↦ hordered k' hk' k hk hlt hc' hc

end Joined

section Nodes

variable {κ : Type*} [DecidableEq κ] {null : κ} {arity : ℕ} {child child' : κ → ℕ → κ} {level : ℕ} {b : κ} {i j k : ℕ}

theorem nodes_null (level : ℕ) : nodes null arity child level null = [] := by
  cases level <;> exact if_pos rfl

theorem find_null (level i : ℕ) : find null arity child level null i = null := by
  cases level with
  | zero => rfl
  | succ level => exact if_pos rfl

theorem nodes_succ (hb : b ≠ null) :
    nodes null arity child (level + 1) b =
      b :: (List.range arity).flatMap fun k ↦ nodes null arity child level (child b k) :=
  if_neg hb

theorem find_succ (hb : b ≠ null) :
    find null arity child (level + 1) b i = find null arity child level (child b (i / arity ^ level % arity)) i :=
  if_neg hb

theorem mem_nodes_self (hb : b ≠ null) (level : ℕ) : b ∈ nodes null arity child level b := by
  cases level with
  | zero =>
    rw [nodes, if_neg hb]
    exact List.mem_singleton_self b
  | succ level =>
    rw [nodes_succ hb]
    exact List.mem_cons_self

theorem mem_nodes_child (hb : b ≠ null) (hk : k < arity) {c : κ} (hc : c ∈ nodes null arity child level (child b k)) :
    c ∈ nodes null arity child (level + 1) b := by
  rw [nodes_succ hb]
  exact List.mem_cons_of_mem _ (List.mem_flatMap.mpr ⟨k, List.mem_range.mpr hk, hc⟩)

theorem ne_null_of_mem {c : κ} (hc : c ∈ nodes null arity child level b) : c ≠ null := by
  induction level generalizing b with
  | zero =>
    by_cases hb : b = null
    · rw [nodes, if_pos hb] at hc
      exact absurd hc List.not_mem_nil
    · rw [nodes, if_neg hb, List.mem_singleton] at hc
      exact hc ▸ hb
  | succ level ih =>
    by_cases hb : b = null
    · rw [hb, nodes_null] at hc
      exact absurd hc List.not_mem_nil
    · rw [nodes_succ hb] at hc
      rcases List.mem_cons.mp hc with rfl | hc
      · exact hb
      · obtain ⟨k, -, hk⟩ := List.mem_flatMap.mp hc
        exact ih hk

/-- Only the nodes of a tree matter to it. -/
theorem nodes_congr (h : ∀ c ∈ nodes null arity child level b, ∀ k, child' c k = child c k) :
    nodes null arity child' level b = nodes null arity child level b := by
  induction level generalizing b with
  | zero => rfl
  | succ level ih =>
    by_cases hb : b = null
    · rw [hb, nodes_null, nodes_null]
    · rw [nodes_succ hb, nodes_succ hb]
      refine congrArg (b :: ·) (List.flatMap_congr fun k hk ↦ ?_)
      rw [h b (mem_nodes_self hb _) k]
      exact ih fun c hc ↦ h c (mem_nodes_child hb (List.mem_range.mp hk) hc)

theorem find_congr (harity : 0 < arity) (h : ∀ c ∈ nodes null arity child level b, ∀ k, child' c k = child c k) (i : ℕ) :
    find null arity child' level b i = find null arity child level b i := by
  induction level generalizing b with
  | zero => rfl
  | succ level ih =>
    by_cases hb : b = null
    · rw [hb, find_null, find_null]
    · rw [find_succ hb, find_succ hb, h b (mem_nodes_self hb _)]
      exact ih fun c hc ↦ h c (mem_nodes_child hb (Nat.mod_lt _ harity) hc)

theorem find_mem (harity : 0 < arity) (h : find null arity child level b i ≠ null) :
    find null arity child level b i ∈ nodes null arity child level b := by
  induction level generalizing b with
  | zero => exact mem_nodes_self h 0
  | succ level ih =>
    have hb : b ≠ null := by
      rintro rfl
      exact h (find_null _ i)
    rw [find_succ hb] at h ⊢
    exact mem_nodes_child hb (Nat.mod_lt _ harity) (ih h)

/-- What no repetition in a tree says about one node. -/
theorem nodup_succ (hb : b ≠ null) (h : (nodes null arity child (level + 1) b).Nodup) :
    (∀ k < arity, b ∉ nodes null arity child level (child b k)) ∧
      (∀ k < arity, (nodes null arity child level (child b k)).Nodup) ∧
      ∀ k < arity, ∀ k' < arity, k ≠ k' →
        (nodes null arity child level (child b k)).Disjoint (nodes null arity child level (child b k')) := by
  rw [nodes_succ hb] at h
  obtain ⟨hself, hrest⟩ := List.nodup_cons.mp h
  refine ⟨fun k hk hmem ↦ hself (List.mem_flatMap.mpr ⟨k, List.mem_range.mpr hk, hmem⟩), nodup_flatMap_range hrest⟩

theorem find_mod (b : κ) (i : ℕ) :
    find null arity child level b (i % arity ^ level) = find null arity child level b i := by
  have hgeneral : ∀ n, level ≤ n → find null arity child level b (i % arity ^ n) = find null arity child level b i := by
    intro n
    induction level generalizing b with
    | zero => exact fun _ ↦ rfl
    | succ level ih =>
      intro hle
      by_cases hb : b = null
      · rw [hb, find_null, find_null]
      · rw [find_succ hb, find_succ hb, ih _ (Nat.le_of_succ_le hle)]
        obtain ⟨m, rfl⟩ := Nat.exists_eq_add_of_le hle
        have hpow : arity ^ (level + 1 + m) = arity ^ level * (arity * arity ^ m) := by
          rw [pow_add, pow_succ, mul_assoc]
        rw [hpow, Nat.mod_mul_right_div_self, Nat.mod_mul_right_mod]
  exact hgeneral level le_rfl

/-- A leaf has one index. -/
theorem find_inj (harity : 0 < arity) (hnodup : (nodes null arity child level b).Nodup) (hi : i < arity ^ level)
    (hj : j < arity ^ level) (hne : find null arity child level b i ≠ null)
    (heq : find null arity child level b i = find null arity child level b j) : i = j := by
  induction level generalizing b i j with
  | zero =>
    rw [pow_zero] at hi hj
    omega
  | succ level ih =>
    have hb : b ≠ null := by
      rintro rfl
      exact hne (find_null _ i)
    obtain ⟨-, hall, hapart⟩ := nodup_succ hb hnodup
    have hpos : 0 < arity ^ level := Nat.pow_pos harity
    have hquotient (n : ℕ) (hn : n < arity ^ (level + 1)) : n / arity ^ level % arity = n / arity ^ level := by
      rw [pow_succ] at hn
      exact Nat.mod_eq_of_lt (Nat.div_lt_of_lt_mul hn)
    rw [find_succ hb] at hne heq
    rw [find_succ hb] at heq
    have hlti := Nat.mod_lt (i / arity ^ level) harity
    have hltj := Nat.mod_lt (j / arity ^ level) harity
    by_cases hsame : i / arity ^ level % arity = j / arity ^ level % arity
    · rw [← hsame] at heq
      rw [← find_mod _ i] at hne heq
      rw [← find_mod _ j] at heq
      have hmod := ih (hall _ hlti) (Nat.mod_lt i hpos) (Nat.mod_lt j hpos) hne heq
      rw [hquotient i hi, hquotient j hj] at hsame
      rw [← Nat.div_add_mod i (arity ^ level), ← Nat.div_add_mod j (arity ^ level), hmod, hsame]
    · refine absurd (hapart _ hlti _ hltj hsame (find_mem harity hne) ?_) id
      rw [heq] at hne ⊢
      exact find_mem harity hne

/-- What a leaf holds is no matter to the tree. -/
theorem leaf_congr (harity : 0 < arity) (hnodup : (nodes null arity child level b).Nodup)
    (hne : find null arity child level b i ≠ null)
    (h : ∀ c, c ≠ find null arity child level b i → ∀ k, child' c k = child c k) :
    nodes null arity child' level b = nodes null arity child level b ∧
      ∀ j, find null arity child' level b j = find null arity child level b j := by
  induction level generalizing b with
  | zero => exact ⟨rfl, fun _ ↦ rfl⟩
  | succ level ih =>
    have hb : b ≠ null := by
      rintro rfl
      exact hne (find_null _ i)
    obtain ⟨hself, hall, hapart⟩ := nodup_succ hb hnodup
    rw [find_succ hb] at hne h
    have hlt := Nat.mod_lt (i / arity ^ level) harity
    have hmem := find_mem harity hne
    have hchild (k : ℕ) : child' b k = child b k := h b (ne_of_mem_of_not_mem hmem (hself _ hlt)).symm k
    have hbelow (k : ℕ) (hk : k < arity) : nodes null arity child' level (child b k) = nodes null arity child level (child b k) ∧
        ∀ j, find null arity child' level (child b k) j = find null arity child level (child b k) j := by
      by_cases hki : k = i / arity ^ level % arity
      · rw [hki]
        exact ih (hall _ hlt) hne h
      · have hsame : ∀ c ∈ nodes null arity child level (child b k), ∀ k, child' c k = child c k := by
          intro c hc
          refine h c ?_
          rintro rfl
          exact hapart k hk _ hlt hki hc hmem
        exact ⟨nodes_congr hsame, find_congr harity hsame⟩
    constructor
    · rw [nodes_succ hb, nodes_succ hb]
      refine congrArg (b :: ·) (List.flatMap_congr fun k hk ↦ ?_)
      rw [hchild k]
      exact (hbelow k (List.mem_range.mp hk)).1
    · intro j
      rw [find_succ hb, find_succ hb, hchild]
      exact (hbelow _ (Nat.mod_lt _ harity)).2 j

/-- The tree below one child grows. -/
theorem nodes_perm_of_child {new : List κ} (hb : b ≠ null) (hi : i < arity)
    (hself : (nodes null arity child' level (child' b i)).Perm (new ++ nodes null arity child level (child b i)))
    (hother : ∀ k < arity, k ≠ i →
      nodes null arity child' level (child' b k) = nodes null arity child level (child b k)) :
    (nodes null arity child' (level + 1) b).Perm (new ++ nodes null arity child (level + 1) b) := by
  rw [nodes_succ hb, nodes_succ hb]
  have hrest := perm_flatMap_of_ne (f := fun k ↦ nodes null arity child level (child b k))
    (g := fun k ↦ nodes null arity child' level (child' b k)) List.nodup_range (List.mem_range.mpr hi) hself
    fun k hk ↦ hother k (List.mem_range.mp hk)
  refine (hrest.cons b).trans ?_
  exact List.perm_middle.symm

end Nodes

end S8000.Foundation.IndexTree
