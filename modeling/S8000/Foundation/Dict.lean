import Mathlib.Data.List.Basic
import Mathlib.Data.List.Nodup

namespace S8000.Foundation

/-- A dictionary that remembers the order in which its keys were first stored. -/
@[ext] structure Dict (α β : Type) where
  items : List (α × β)
  nodup_keys : (items.map Prod.fst).Nodup

namespace Dict

variable {α β : Type} [DecidableEq α]

/-- Storing under a present key keeps the key's place. -/
def put : List (α × β) → α → β → List (α × β)
  | [], k, v => [(k, v)]
  | (k', v') :: l, k, v => if k' = k then (k, v) :: l else (k', v') :: put l k v

theorem map_fst_put (l : List (α × β)) (k : α) (v : β) :
    (put l k v).map Prod.fst =
      if k ∈ l.map Prod.fst then l.map Prod.fst else l.map Prod.fst ++ [k] := by
  induction l with
  | nil => rfl
  | cons p l ih =>
    by_cases hp : p.1 = k
    · simp [put, hp]
    · simp only [put, if_neg hp, List.map_cons, ih, List.mem_cons, Ne.symm hp, false_or]
      split <;> rfl

theorem nodup_put {l : List (α × β)} (hl : (l.map Prod.fst).Nodup) (k : α) (v : β) :
    ((put l k v).map Prod.fst).Nodup := by
  rw [map_fst_put]
  split
  · exact hl
  · rename_i h
    exact hl.append (List.nodup_singleton k) (by simpa using h)

def keys (d : Dict α β) : List α := d.items.map Prod.fst

def get? (d : Dict α β) (k : α) : Option β := d.items.lookup k

def getD (d : Dict α β) (k : α) (v : β) : β := (d.get? k).getD v

def set (d : Dict α β) (k : α) (v : β) : Dict α β := ⟨put d.items k v, nodup_put d.nodup_keys k v⟩

def setdefault (d : Dict α β) (k : α) (v : β) : Dict α β :=
  match d.get? k with
  | some _ => d
  | none => d.set k v

/-- The entries whose keys pass a test. -/
def filterKeys (d : Dict α β) (p : α → Bool) : Dict α β where
  items := d.items.filter fun kv ↦ p kv.1
  nodup_keys := d.nodup_keys.sublist (List.filter_sublist.map Prod.fst)

/-- The same keys with other values. -/
def mapValues {γ : Type} (d : Dict α β) (f : β → γ) : Dict α γ where
  items := d.items.map fun kv ↦ (kv.1, f kv.2)
  nodup_keys := by
    rw [List.map_map]
    exact d.nodup_keys

instance : EmptyCollection (Dict α β) := ⟨⟨[], List.nodup_nil⟩⟩

instance : Membership α (Dict α β) := ⟨fun d k ↦ d.get? k ≠ none⟩

instance (d : Dict α β) (k : α) : Decidable (k ∈ d) :=
  match h : d.get? k with
  | none => isFalse fun hk ↦ hk h
  | some v => isTrue fun hk ↦ Option.some_ne_none v (h.symm.trans hk)

instance [DecidableEq β] : DecidableEq (Dict α β) := fun d e ↦
  decidable_of_iff (d.items = e.items) Dict.ext_iff.symm

theorem mem_def {d : Dict α β} {k : α} : k ∈ d ↔ d.get? k ≠ none := Iff.rfl

theorem mem_iff_get?_eq_some {d : Dict α β} {k : α} : k ∈ d ↔ ∃ v, d.get? k = some v :=
  Option.ne_none_iff_exists'

@[simp] theorem get?_empty (k : α) : (∅ : Dict α β).get? k = none := rfl

@[simp] theorem not_mem_empty (k : α) : k ∉ (∅ : Dict α β) := fun h ↦ h rfl

theorem lookup_put (l : List (α × β)) (k k' : α) (v : β) :
    (put l k v).lookup k' = if k = k' then some v else l.lookup k' := by
  induction l with
  | nil =>
    rw [put, List.lookup_cons]
    by_cases h : k = k'
    · simp [h]
    · simp [h, beq_eq_false_iff_ne.mpr (Ne.symm h)]
  | cons p l ih =>
    obtain ⟨a, b⟩ := p
    by_cases hp : a = k
    · by_cases h : k = k'
      · simp [put, hp, h]
      · simp [put, hp, h, List.lookup_cons, beq_eq_false_iff_ne.mpr (Ne.symm h)]
    · by_cases h : k = k'
      · subst h
        simpa [put, hp, List.lookup_cons, beq_eq_false_iff_ne.mpr (Ne.symm hp)] using ih
      · simp only [put, if_neg hp, List.lookup_cons, ih, if_neg h]

theorem get?_set (d : Dict α β) (k k' : α) (v : β) :
    (d.set k v).get? k' = if k = k' then some v else d.get? k' :=
  lookup_put d.items k k' v

@[simp] theorem get?_set_self (d : Dict α β) (k : α) (v : β) : (d.set k v).get? k = some v := by
  rw [get?_set, if_pos rfl]

theorem get?_set_of_ne (d : Dict α β) {k k' : α} (v : β) (h : k ≠ k') :
    (d.set k v).get? k' = d.get? k' := by
  rw [get?_set, if_neg h]

theorem mem_set {d : Dict α β} {k k' : α} {v : β} : k' ∈ d.set k v ↔ k' = k ∨ k' ∈ d := by
  rw [mem_def, get?_set, mem_def]
  by_cases h : k = k'
  · simp [h]
  · simp [h, Ne.symm h]

theorem getD_set (d : Dict α β) (k k' : α) (v w : β) :
    (d.set k v).getD k' w = if k = k' then v else d.getD k' w := by
  rw [getD, get?_set]
  split <;> rfl

theorem get?_eq_some_iff {d : Dict α β} {k : α} {v : β} :
    d.get? k = some v ↔ (k, v) ∈ d.items := by
  obtain ⟨l, hl⟩ := d
  change l.lookup k = some v ↔ (k, v) ∈ l
  induction l with
  | nil => simp
  | cons p l ih =>
    obtain ⟨a, b⟩ := p
    have hn := List.nodup_cons.mp hl
    by_cases hp : a = k
    · have hk : (k, v) ∉ l := fun h ↦ hn.1 (hp ▸ List.mem_map.mpr ⟨_, h, rfl⟩)
      simp [Prod.ext_iff, hp, hk, eq_comm]
    · simp [List.lookup_cons, beq_eq_false_iff_ne.mpr (Ne.symm hp), ih hn.2, Prod.ext_iff,
        Ne.symm hp]

theorem get?_filterKeys (d : Dict α β) (p : α → Bool) (k : α) :
    (d.filterKeys p).get? k = if p k then d.get? k else none := by
  apply Option.ext
  intro v
  rw [get?_eq_some_iff]
  simp only [filterKeys, List.mem_filter]
  rw [← get?_eq_some_iff]
  split <;> simp_all

theorem mem_keys {d : Dict α β} {k : α} : k ∈ d.keys ↔ k ∈ d := by
  rw [mem_iff_get?_eq_some, keys, List.mem_map]
  constructor
  · rintro ⟨⟨k', v⟩, h, rfl⟩
    exact ⟨v, get?_eq_some_iff.mpr h⟩
  · rintro ⟨v, h⟩
    exact ⟨(k, v), get?_eq_some_iff.mp h, rfl⟩

theorem put_of_not_mem {l : List (α × β)} {k : α} (v : β) (h : k ∉ l.map Prod.fst) :
    put l k v = l ++ [(k, v)] := by
  induction l with
  | nil => rfl
  | cons p l ih =>
    rw [List.map_cons, List.mem_cons, not_or] at h
    rw [put, if_neg (Ne.symm h.1), ih h.2, List.cons_append]

theorem items_set_of_not_mem {d : Dict α β} {k : α} (v : β) (h : k ∉ d) :
    (d.set k v).items = d.items ++ [(k, v)] :=
  put_of_not_mem v fun hk ↦ h (mem_keys.mp hk)

omit [DecidableEq α] in
theorem keys_mapValues {γ : Type} (d : Dict α β) (f : β → γ) : (d.mapValues f).keys = d.keys := by
  rw [keys, mapValues, List.map_map]
  rfl

theorem get?_mapValues {γ : Type} (d : Dict α β) (f : β → γ) (k : α) :
    (d.mapValues f).get? k = (d.get? k).map f := by
  obtain ⟨l, hl⟩ := d
  change (l.map fun kv ↦ (kv.1, f kv.2)).lookup k = (l.lookup k).map f
  clear hl
  induction l with
  | nil => rfl
  | cons p l ih =>
    rw [List.map_cons, List.lookup_cons, List.lookup_cons, ih]
    split <;> rfl

theorem setdefault_of_mem {d : Dict α β} {k : α} (v : β) (h : k ∈ d) : d.setdefault k v = d := by
  obtain ⟨u, hu⟩ := mem_iff_get?_eq_some.mp h
  simp [setdefault, hu]

end Dict

end S8000.Foundation
