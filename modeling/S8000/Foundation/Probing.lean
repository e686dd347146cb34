import Mathlib.Data.Finset.Card
import Mathlib.Data.List.NodupEquivFin
import Mathlib.Logic.Function.Basic

/-! The slots of a circle taken one after the other, each the first free one from where the last step ended. -/

namespace S8000.Foundation.Probing

/-- The first slot from `i` on that is not flagged. -/
def probe (flg : ℕ → ℕ) (n : ℕ) : ℕ → ℕ → ℕ
  | 0, i => i
  | fuel + 1, i => if flg i ≠ 0 then probe flg n fuel ((i + 1) % n) else i

structure Circle where
  i : ℕ
  flg : ℕ → ℕ
  taken : List ℕ

def Circle.take (n m : ℕ) (c : Circle) : Circle :=
  let i := probe c.flg n n c.i
  ⟨(i + m) % n, Function.update c.flg i (c.flg i + 1), c.taken ++ [i]⟩

/-- All slots, `m` apart as far as they are free. -/
def order (n m : ℕ) : List ℕ := ((Circle.take n m)^[n] ⟨0, fun _ ↦ 0, []⟩).taken

variable {flg : ℕ → ℕ} {n m i : ℕ} {c : Circle}

theorem probe_lt (hi : i < n) (fuel : ℕ) : probe flg n fuel i < n := by
  induction fuel generalizing i with
  | zero => exact hi
  | succ fuel ih =>
    unfold probe
    split
    · exact ih (Nat.mod_lt _ (by omega))
    · exact hi

/-- A slot that is near enough is found. -/
theorem probe_eq_zero_of_near (hi : i < n) {fuel d : ℕ} (hd : d < fuel) (h : flg ((i + d) % n) = 0) :
    flg (probe flg n fuel i) = 0 := by
  induction fuel generalizing i d with
  | zero => omega
  | succ fuel ih =>
    unfold probe
    split
    · rename_i hflag
      cases d with
      | zero =>
        rw [Nat.add_zero, Nat.mod_eq_of_lt hi] at h
        exact absurd h hflag
      | succ d =>
        refine ih (Nat.mod_lt _ (by omega)) (Nat.lt_of_succ_lt_succ hd) ?_
        rwa [Nat.mod_add_mod, Nat.add_assoc, Nat.add_comm 1 d]
    · rename_i hflag
      exact not_not.mp hflag

theorem probe_eq_zero (hi : i < n) {j : ℕ} (hj : j < n) (h : flg j = 0) : flg (probe flg n n i) = 0 := by
  have hd : (j + n - i) % n < n := Nat.mod_lt _ (by omega)
  refine probe_eq_zero_of_near hi hd ?_
  have hplace : (i + (j + n - i) % n) % n = j := by
    rw [Nat.add_mod_mod, show i + (j + n - i) = j + n by omega, Nat.add_mod_right, Nat.mod_eq_of_lt hj]
  rwa [hplace]

/-- The flags mark what was taken, and nothing was taken twice. -/
structure Circle.Valid (n : ℕ) (c : Circle) : Prop where
  lt : c.i < n
  mem_lt : ∀ i ∈ c.taken, i < n
  nodup : c.taken.Nodup
  flg_iff : ∀ i, c.flg i = 0 ↔ i ∉ c.taken

theorem Circle.Valid.exists_free (h : c.Valid n) (hlt : c.taken.length < n) : ∃ j < n, c.flg j = 0 := by
  by_contra hnone
  push Not at hnone
  have hsub : List.range n ⊆ c.taken := by
    intro j hj
    by_contra hmem
    exact hnone j (List.mem_range.mp hj) ((h.flg_iff j).mpr hmem)
  have hlength := (List.subperm_of_subset List.nodup_range hsub).length_le
  rw [List.length_range] at hlength
  omega

theorem Circle.Valid.take (h : c.Valid n) (hlt : c.taken.length < n) (m : ℕ) : (c.take n m).Valid n := by
  obtain ⟨j, hj, hfree⟩ := h.exists_free hlt
  have hzero : c.flg (probe c.flg n n c.i) = 0 := probe_eq_zero h.lt hj hfree
  have hplace : probe c.flg n n c.i < n := probe_lt h.lt n
  unfold Circle.take
  generalize probe c.flg n n c.i = i at hzero hplace
  have hmem : i ∉ c.taken := (h.flg_iff i).mp hzero
  refine ⟨Nat.mod_lt _ (by omega), fun k hk ↦ ?_, ?_, fun k ↦ ?_⟩
  · rcases List.mem_append.mp hk with hk | hk
    · exact h.mem_lt k hk
    · exact List.mem_singleton.mp hk ▸ hplace
  · exact List.nodup_append'.mpr ⟨h.nodup, List.nodup_singleton i, List.disjoint_singleton.mpr hmem⟩
  · change Function.update c.flg i (c.flg i + 1) k = 0 ↔ k ∉ c.taken ++ [i]
    by_cases heq : k = i
    · subst heq
      simp
    · rw [Function.update_of_ne heq, h.flg_iff k, List.mem_append, List.mem_singleton]
      simp only [heq, or_false]

theorem Circle.length_taken_take (n m : ℕ) (c : Circle) : (c.take n m).taken.length = c.taken.length + 1 :=
  List.length_append

theorem Circle.valid_iterate (hn : 0 < n) (m : ℕ) {k : ℕ} (hk : k ≤ n) :
    ((Circle.take n m)^[k] ⟨0, fun _ ↦ 0, []⟩).Valid n ∧
      ((Circle.take n m)^[k] ⟨0, fun _ ↦ 0, []⟩).taken.length = k := by
  induction k with
  | zero => exact ⟨⟨hn, by simp, List.nodup_nil, by simp⟩, rfl⟩
  | succ k ih =>
    obtain ⟨hvalid, hlength⟩ := ih (by omega)
    rw [Function.iterate_succ_apply']
    exact ⟨hvalid.take (by omega) m, (length_taken_take _ _ _).trans (congrArg (· + 1) hlength)⟩

/-- Every slot is taken once, whatever the distance. -/
theorem nodup_order (hn : 0 < n) (m : ℕ) : (order n m).Nodup :=
  (Circle.valid_iterate hn m le_rfl).1.nodup

theorem mem_order (hn : 0 < n) (m : ℕ) : i ∈ order n m ↔ i < n := by
  obtain ⟨hvalid, hlength⟩ := Circle.valid_iterate hn m le_rfl
  refine ⟨hvalid.mem_lt i, fun hi ↦ ?_⟩
  have hsub : order n m ⊆ List.range n := fun j hj ↦ List.mem_range.mpr (hvalid.mem_lt j hj)
  have hperm := (List.subperm_of_subset hvalid.nodup hsub).perm_of_length_le (by rw [hlength, List.length_range])
  exact hperm.mem_iff.mpr (List.mem_range.mpr hi)

end S8000.Foundation.Probing
