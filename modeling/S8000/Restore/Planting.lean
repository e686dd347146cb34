import S8000.Restore.Steps
import Mathlib.Data.List.ReduceOption

namespace S8000.Restore.V7

open Foundation Foundation.Bytes Foundation.Namespace
open Dump (Text isDot)

section Slots

variable {n : Text} {i : ℕ} {ss : List Slot}

theorem lookup_eq_none : lookup n ss = none ↔ ∀ i, some (n, i) ∉ ss := by
  induction ss with
  | nil => simp [lookup]
  | cons s ss ih =>
    cases s with
    | none => simpa [lookup] using ih
    | some e =>
      obtain ⟨m, k⟩ := e
      rw [lookup]
      split
      · rename_i hm
        exact iff_of_false (Option.some_ne_none k) fun h ↦ h k (hm ▸ List.mem_cons_self)
      · rename_i hm
        rw [ih]
        refine forall_congr' fun j ↦ ?_
        rw [List.mem_cons, Option.some.injEq, Prod.mk.injEq, not_or]
        exact (and_iff_right fun h ↦ hm h.1.symm).symm

theorem mem_of_lookup (h : lookup n ss = some i) : some (n, i) ∈ ss := by
  induction ss with
  | nil => cases h
  | cons s ss ih =>
    cases s with
    | none => exact List.mem_cons_of_mem _ (ih h)
    | some e =>
      obtain ⟨m, k⟩ := e
      rw [lookup] at h
      split at h
      · rename_i hm
        rw [← hm, ← Option.some.inj h]
        exact List.mem_cons_self
      · exact List.mem_cons_of_mem _ (ih h)

/-- No name is there twice. -/
def Distinct (ss : List Slot) : Prop := (ss.reduceOption.map Prod.fst).Nodup

theorem lookup_eq_some (hd : Distinct ss) : lookup n ss = some i ↔ some (n, i) ∈ ss := by
  refine ⟨mem_of_lookup, fun hmem ↦ ?_⟩
  cases hl : lookup n ss with
  | none => exact absurd hmem (lookup_eq_none.mp hl i)
  | some k =>
    have hk := List.reduceOption_mem_iff.mpr (mem_of_lookup hl)
    have hi := List.reduceOption_mem_iff.mpr hmem
    have hsame := List.inj_on_of_nodup_map hd hk hi rfl
    rw [(Prod.mk.inj hsame).2]

theorem enterSlot_of_full (h : none ∉ ss) : enterSlot n i ss = ss ++ [some (n, i)] := by
  induction ss with
  | nil => rfl
  | cons s ss ih =>
    rw [List.mem_cons, not_or] at h
    cases s with
    | none => exact absurd rfl h.1
    | some e => rw [enterSlot, ih h.2, List.cons_append]

end Slots

section Planted

variable {κ : Type}

/-- A name that was made, by the names that lead to it; without a key it is a directory. -/
structure Made (κ : Type) where
  path : List Text
  key : Option κ

/-- What a name leads to. -/
inductive Tag (κ : Type)
  | directory (path : List Text)
  | object (key : κ)
deriving DecidableEq

def Made.tag (m : Made κ) : Tag κ := m.key.elim (.directory m.path) .object

/-- The tags that have a name, after the names `gone` are cleared. -/
def tags (made : List (Made κ)) (gone : List (List Text)) : List (Tag κ) :=
  .directory [] :: (made.filter (·.path ∉ gone)).map Made.tag

variable (place : Tag κ → ℕ)

def Made.slot (gone : List (List Text)) (m : Made κ) : Slot :=
  if m.path ∈ gone then none else some (m.path.getLastD [], place m.tag)

/-- The slots of a directory, its names in the order in which they were made. -/
def slotsOf (made : List (Made κ)) (gone : List (List Text)) (p : List Text) : List Slot :=
  some (['.'], place (.directory p)) :: some (['.', '.'], place (.directory p.dropLast)) ::
    (made.filter (·.path.dropLast = p)).map (Made.slot place gone)

/-- The file system holds the names that were made, without those that are gone, and nothing else. -/
structure Planted [DecidableEq κ] (place : Tag κ → ℕ) (look : κ → Inode) (made : List (Made κ))
    (gone : List (List Text)) (fs : Fs) : Prop where
  root : place (.directory []) = rootIno
  inj {s t : Tag κ} : s ∈ tags made gone → t ∈ tags made gone → place s = place t → s = t
  only {i : ℕ} : i ∈ fs.inodes → ∃ t ∈ tags made gone, place t = i
  dir {p : List Text} : .directory p ∈ tags made gone →
    fs.slots? (place (.directory p)) = some (slotsOf place made gone p)
  obj {k : κ} : .object k ∈ tags made gone → fs.inodes.get? (place (.object k)) =
    some { look k with nlink := (made.filter (·.key = some k)).length }

/-- Every name has a directory that is there, and no name is made twice. -/
structure Orderly (made : List (Made κ)) (gone : List (List Text)) : Prop where
  named {m : Made κ} : m ∈ made → ∃ q n, m.path = q ++ [n] ∧ ¬ isDot n ∧ .directory q ∈ tags made gone
  nodup : (made.map Made.path).Nodup

variable {place : Tag κ → ℕ} {look : κ → Inode} {made : List (Made κ)} {gone : List (List Text)} {fs fs' : Fs}
  {m : Made κ} {p q : List Text} {n : Text} {k : κ} {t : Tag κ}

theorem slot_of_gone (h : m.path ∈ gone) : m.slot place gone = none := if_pos h

theorem slot_of_live (hpath : m.path = q ++ [n]) (h : m.path ∉ gone) :
    m.slot place gone = some (n, place m.tag) := by
  rw [Made.slot, if_neg h, hpath, List.getLastD_concat]

theorem slot_cons_of_ne (h : m.path ≠ p) : m.slot place (p :: gone) = m.slot place gone := by
  simp [Made.slot, h]

theorem mem_tags : t ∈ tags made gone ↔ t = .directory [] ∨ ∃ m ∈ made, m.path ∉ gone ∧ m.tag = t := by
  simp [tags, and_assoc]

theorem tag_eq_directory : m.tag = .directory p ↔ m.key = none ∧ m.path = p := by
  rw [Made.tag]
  cases m.key <;> simp

theorem tag_eq_object : m.tag = .object k ↔ m.key = some k := by
  rw [Made.tag]
  cases m.key <;> simp

theorem tags_append (made : List (Made κ)) (m : Made κ) : tags (made ++ [m]) [] = tags made [] ++ [m.tag] := by
  simp [tags]

theorem slotsOf_append (made : List (Made κ)) (gone : List (List Text)) (m : Made κ) (p : List Text) :
    slotsOf place (made ++ [m]) gone p =
      slotsOf place made gone p ++ if m.path.dropLast = p then [m.slot place gone] else [] := by
  rw [slotsOf, slotsOf, List.filter_append, List.map_append]
  split
  · rename_i hp
    simp [hp]
  · rename_i hp
    simp [hp]

theorem Orderly.parent (ho : Orderly made gone) (hp : .directory p ∈ tags made gone) :
    .directory p.dropLast ∈ tags made gone := by
  rcases mem_tags.mp hp with hp | ⟨m, hm, -, htag⟩
  · rw [Tag.directory.inj hp]
    exact List.mem_cons_self
  · obtain ⟨q, n, hpath, -, hq⟩ := ho.named hm
    obtain ⟨-, rfl⟩ := tag_eq_directory.mp htag
    rwa [hpath, List.dropLast_concat]

theorem slotsOf_congr (ho : Orderly made gone) {place' : Tag κ → ℕ} (h : ∀ t ∈ tags made gone, place' t = place t)
    (hp : .directory p ∈ tags made gone) : slotsOf place' made gone p = slotsOf place made gone p := by
  rw [slotsOf, slotsOf, h _ hp, h _ (ho.parent hp)]
  congr 2
  refine List.map_congr_left fun m hm ↦ ?_
  rw [Made.slot, Made.slot]
  split
  · rfl
  · rename_i hlive
    rw [h m.tag (mem_tags.mpr (.inr ⟨m, List.mem_of_mem_filter hm, hlive, rfl⟩))]

theorem none_notMem_slotsOf : none ∉ slotsOf place made [] p := by
  simp [slotsOf, Made.slot]

theorem mem_slotsOf (ho : Orderly made gone) (hn : ¬ isDot n) {i : ℕ} :
    some (n, i) ∈ slotsOf place made gone p ↔
      ∃ m ∈ made, m.path = p ++ [n] ∧ m.path ∉ gone ∧ i = place m.tag := by
  rw [isDot, not_or] at hn
  rw [slotsOf, List.mem_cons, List.mem_cons, Option.some.injEq, Option.some.injEq, Prod.mk.injEq, Prod.mk.injEq,
    or_iff_right fun h ↦ hn.1 h.1, or_iff_right fun h ↦ hn.2 h.1, List.mem_map]
  constructor
  · rintro ⟨m, hm, hslot⟩
    obtain ⟨hmem, hp⟩ := List.mem_filter.mp hm
    obtain ⟨q, l, hpath, -, -⟩ := ho.named hmem
    rw [Made.slot] at hslot
    split at hslot
    · cases hslot
    · rename_i hlive
      rw [Option.some.injEq, Prod.mk.injEq, hpath, List.getLastD_concat] at hslot
      rw [decide_eq_true_eq, hpath, List.dropLast_concat] at hp
      exact ⟨m, hmem, by rw [hpath, hp, hslot.1], hlive, hslot.2.symm⟩
  · rintro ⟨m, hmem, hpath, hlive, rfl⟩
    refine ⟨m, List.mem_filter.mpr ⟨hmem, by simp [hpath]⟩, ?_⟩
    rw [Made.slot, if_neg hlive, hpath, List.getLastD_concat]

/-- Where no name was made, none is found. -/
theorem lookup_slotsOf_none (ho : Orderly made gone) (hn : ¬ isDot n)
    (hnew : ∀ m ∈ made, m.path = p ++ [n] → m.path ∈ gone) : lookup n (slotsOf place made gone p) = none := by
  refine lookup_eq_none.mpr fun i hmem ↦ ?_
  obtain ⟨m, hm, hpath, hlive, -⟩ := (mem_slotsOf ho hn).mp hmem
  exact hlive (hnew m hm hpath)

/-- The names of a directory, `.` and `..` among them, are there once. -/
theorem distinct_slotsOf (ho : Orderly made gone) (p : List Text) : Distinct (slotsOf place made gone p) := by
  have hchildren : (((made.filter (·.path.dropLast = p)).map (Made.slot place gone)).reduceOption.map
      Prod.fst).Sublist ((made.filter (·.path.dropLast = p)).map fun m ↦ m.path.getLastD []) := by
    generalize made.filter (·.path.dropLast = p) = ms
    induction ms with
    | nil => exact .slnil
    | cons m ms ih =>
      rw [List.map_cons, List.map_cons, Made.slot]
      split
      · exact ih.cons _
      · exact ih.cons_cons _
  have hlast : ∀ {m}, m ∈ made.filter (·.path.dropLast = p) → ∃ n, m.path = p ++ [n] ∧ ¬ isDot n := by
    intro m hm
    obtain ⟨hmem, hp⟩ := List.mem_filter.mp hm
    obtain ⟨q, n, hpath, hn, -⟩ := ho.named hmem
    rw [decide_eq_true_eq, hpath, List.dropLast_concat] at hp
    exact ⟨n, by rw [hpath, hp], hn⟩
  have hnodup : ((made.filter (·.path.dropLast = p)).map fun m ↦ m.path.getLastD []).Nodup := by
    refine List.Nodup.map_on ?_ (List.Nodup.of_map _ ho.nodup |>.filter _)
    intro m hm m' hm' hsame
    obtain ⟨n, hpath, -⟩ := hlast hm
    obtain ⟨n', hpath', -⟩ := hlast hm'
    rw [hpath, hpath', List.getLastD_concat, List.getLastD_concat] at hsame
    refine List.inj_on_of_nodup_map ho.nodup (List.mem_of_mem_filter hm) (List.mem_of_mem_filter hm') ?_
    rw [hpath, hpath', hsame]
  have hdot : ∀ l ∈ ((made.filter (·.path.dropLast = p)).map (Made.slot place gone)).reduceOption.map Prod.fst,
      ¬ isDot l := by
    intro l hl
    obtain ⟨m, hm, rfl⟩ := List.mem_map.mp (hchildren.subset hl)
    obtain ⟨n, hpath, hn⟩ := hlast hm
    rwa [hpath, List.getLastD_concat]
  rw [Distinct, slotsOf, List.reduceOption_cons_of_some, List.reduceOption_cons_of_some, List.map_cons,
    List.map_cons, List.nodup_cons, List.nodup_cons, List.mem_cons, not_or]
  refine ⟨⟨by simp, fun h ↦ hdot _ h (.inl rfl)⟩, fun h ↦ hdot _ h (.inr rfl), hchildren.nodup hnodup⟩

/-- A name that can be made: its directory is there and it is new. -/
structure Fits (made : List (Made κ)) (m : Made κ) (q : List Text) (n : Text) : Prop where
  path : m.path = q ++ [n]
  name : ¬ isDot n
  parent : .directory q ∈ tags made []
  fresh : m.path ∉ made.map Made.path

theorem Orderly.append (ho : Orderly made []) (hf : Fits made m q n) : Orderly (made ++ [m]) [] where
  named {m'} hm' := by
    rcases List.mem_append.mp hm' with hm' | hm'
    · obtain ⟨q, n, hpath, hn, hq⟩ := ho.named hm'
      exact ⟨q, n, hpath, hn, tags_append made m ▸ List.mem_append_left _ hq⟩
    · obtain rfl := List.mem_singleton.mp hm'
      exact ⟨q, n, hf.path, hf.name, tags_append made m' ▸ List.mem_append_left _ hf.parent⟩
  nodup := by
    rw [List.map_append]
    exact ho.nodup.append (List.nodup_singleton _) (by simpa using hf.fresh)

theorem Fits.lookup (ho : Orderly made []) (hf : Fits made m q n) : lookup n (slotsOf place made [] q) = none := by
  refine lookup_slotsOf_none ho hf.name fun m' hm' hpath ↦ absurd ?_ hf.fresh
  rw [hf.path, ← hpath]
  exact List.mem_map_of_mem hm'

section Clearing

/-- Clearing a name clears the slot that was made for it. -/
theorem clearSlot_map {ms : List (Made κ)} (hnodup : (ms.map Made.path).Nodup)
    (hpath : ∀ m' ∈ ms, ∃ l, m'.path = q ++ [l]) :
    clearSlot n (ms.map (Made.slot place gone)) = ms.map (Made.slot place ((q ++ [n]) :: gone)) := by
  induction ms with
  | nil => rfl
  | cons m ms ih =>
    obtain ⟨hm, hnodup⟩ := List.nodup_cons.mp hnodup
    obtain ⟨⟨l, hl⟩, hrest⟩ := List.forall_mem_cons.mp hpath
    rw [List.map_cons, List.map_cons]
    by_cases hgone : m.path ∈ gone
    · rw [slot_of_gone hgone, slot_of_gone (List.mem_cons_of_mem _ hgone), clearSlot, ih hnodup hrest]
    · rw [slot_of_live hl hgone, clearSlot]
      by_cases hln : l = n
      · -- the other names are not cleared
        rw [if_pos hln, slot_of_gone (by rw [hl, hln]; exact List.mem_cons_self)]
        congr 1
        refine List.map_congr_left fun m' hm' ↦ (slot_cons_of_ne fun heq ↦ hm ?_).symm
        rw [hl, hln, ← heq]
        exact List.mem_map_of_mem hm'
      · have hne : m.path ≠ q ++ [n] := fun heq ↦
          hln (List.singleton_inj.mp (List.append_cancel_left (hl.symm.trans heq)))
        rw [if_neg hln, slot_cons_of_ne hne, slot_of_live hl hgone, ih hnodup hrest]

theorem clearSlot_slotsOf (ho : Orderly made gone) (hn : ¬ isDot n) :
    clearSlot n (slotsOf place made gone q) = slotsOf place made ((q ++ [n]) :: gone) q := by
  rw [isDot, not_or] at hn
  rw [slotsOf, clearSlot, if_neg (Ne.symm hn.1), clearSlot, if_neg (Ne.symm hn.2), slotsOf]
  congr 2
  refine clearSlot_map (ho.nodup.sublist (List.filter_sublist.map _)) fun m' hm' ↦ ?_
  obtain ⟨hmem, hq⟩ := List.mem_filter.mp hm'
  obtain ⟨p, l, hpath, -, -⟩ := ho.named hmem
  rw [decide_eq_true_eq, hpath, List.dropLast_concat] at hq
  exact ⟨l, by rw [hpath, hq]⟩

/-- The slots of another directory are as they were. -/
theorem slotsOf_cons_of_ne (hqp : p ≠ q) : slotsOf place made ((q ++ [n]) :: gone) p = slotsOf place made gone p := by
  rw [slotsOf, slotsOf]
  congr 2
  refine List.map_congr_left fun m hm ↦ slot_cons_of_ne fun heq ↦ ?_
  obtain ⟨-, hp⟩ := List.mem_filter.mp hm
  rw [decide_eq_true_eq, heq, List.dropLast_concat] at hp
  exact hqp hp.symm

/-- Without the only name of an object, its tag is gone, and no other. -/
theorem mem_tags_cons (ho : Orderly made gone) (hm : m ∈ made) (hkey : m.key = some k)
    (hone : ∀ m' ∈ made, m'.key = some k → m' = m) :
    t ∈ tags made (m.path :: gone) ↔ t ∈ tags made gone ∧ t ≠ .object k := by
  rw [mem_tags, mem_tags]
  constructor
  · rintro (rfl | ⟨m', hm', hgone, rfl⟩)
    · exact ⟨.inl rfl, (fun htag ↦ by cases htag)⟩
    · rw [List.mem_cons, not_or] at hgone
      refine ⟨.inr ⟨m', hm', hgone.2, rfl⟩, fun htag ↦ hgone.1 ?_⟩
      rw [hone m' hm' (tag_eq_object.mp htag)]
  · rintro ⟨rfl | ⟨m', hm', hgone, rfl⟩, hne⟩
    · exact .inl rfl
    · refine .inr ⟨m', hm', fun hmem ↦ ?_, rfl⟩
      rcases List.mem_cons.mp hmem with heq | hmem
      · rw [List.inj_on_of_nodup_map ho.nodup hm' hm heq] at hne
        exact hne (tag_eq_object.mpr hkey)
      · exact hgone hmem

theorem Orderly.cons (ho : Orderly made gone) (hm : m ∈ made) (hkey : m.key = some k)
    (hone : ∀ m' ∈ made, m'.key = some k → m' = m) : Orderly made (m.path :: gone) where
  named {m'} hm' := by
    obtain ⟨q', n', hpath', hn', hq'⟩ := ho.named hm'
    exact ⟨q', n', hpath', hn', (mem_tags_cons ho hm hkey hone).mpr ⟨hq', (fun htag ↦ by cases htag)⟩⟩
  nodup := ho.nodup

end Clearing

variable [DecidableEq κ]

theorem Planted.child (h : Planted place look made gone fs) (ho : Orderly made gone) (hm : m ∈ made)
    (hpath : m.path = q ++ [n]) (hlive : m.path ∉ gone) (hn : ¬ isDot n) (hq : .directory q ∈ tags made gone) :
    fs.child (place (.directory q)) n = some (place m.tag) := by
  rw [Fs.child_of_slots (h.dir hq), lookup_eq_some (distinct_slotsOf ho q)]
  exact (mem_slotsOf ho hn).mpr ⟨m, hm, hpath, hlive, rfl⟩

/-- The names lead where they should. -/
theorem Planted.walk (h : Planted place look made gone fs) (ho : Orderly made gone)
    (hp : .directory p ∈ tags made gone) : fs.walk rootIno p = .ok (place (.directory p)) := by
  induction p using List.reverseRecOn with
  | nil => rw [h.root, Fs.walk]
  | append_singleton p n ih =>
    rcases mem_tags.mp hp with hp | ⟨m, hm, hlive, htag⟩
    · exact absurd (Tag.directory.inj hp) (by simp)
    · obtain ⟨q, l, hpath, hn, hq⟩ := ho.named hm
      obtain ⟨-, hself⟩ := tag_eq_directory.mp htag
      obtain ⟨rfl, hl⟩ := List.append_inj' (hpath.symm.trans hself) rfl
      obtain rfl := List.singleton_inj.mp hl
      rw [Fs.walk_append, ih hq, Except.bind, Fs.walk_cons_of_child (h.child ho hm hpath hlive hn hq), Fs.walk, htag]

theorem Planted.walk_name (h : Planted place look made gone fs) (ho : Orderly made gone) (hm : m ∈ made)
    (hlive : m.path ∉ gone) : fs.walk rootIno m.path = .ok (place m.tag) := by
  obtain ⟨q, n, hpath, hn, hq⟩ := ho.named hm
  rw [hpath, Fs.walk_append, h.walk ho hq, Except.bind, Fs.walk_cons_of_child (h.child ho hm hpath hlive hn hq)]
  rfl

/-- Every directory is one of those that were made. -/
theorem Planted.slots_cases (h : Planted place look made gone fs) (hlook : ∀ k, (look k).content.slots? = none)
    {i : ℕ} {ss : List Slot} (hss : fs.slots? i = some ss) :
    ∃ p, .directory p ∈ tags made gone ∧ place (.directory p) = i ∧ ss = slotsOf place made gone p := by
  obtain ⟨t, ht, rfl⟩ := h.only (Fs.mem_of_slots hss)
  cases t with
  | directory p => exact ⟨p, ht, rfl, Option.some.inj (hss.symm.trans (h.dir ht))⟩
  | object k =>
    rw [Fs.slots?, h.obj ht, Option.bind_some, hlook] at hss
    cases hss

section Growing

variable {d i : ℕ}

/-- A new directory or object, where its name fits. -/
theorem Planted.grow (h : Planted place look made [] fs) (ho : Orderly made []) (hf : Fits made m q n)
    (htag : m.tag ∉ tags made [])
    (hmaking : Making fs (place (.directory q)) n i (slotsOf place made [] q) fs')
    (hdir : m.key = none → fs'.slots? i = some [some (['.'], i), some (['.', '.'], place (.directory q))])
    (hobj : ∀ k, m.key = some k → fs'.inodes.get? i = some { look k with nlink := 1 }) :
    Planted (Function.update place m.tag i) look (made ++ [m]) [] fs' := by
  have hold : ∀ t ∈ tags made [], Function.update place m.tag i t = place t := fun t ht ↦
    Function.update_of_ne (fun heq : t = m.tag ↦ htag (heq ▸ ht)) _ _
  have hnew : ∀ t ∈ tags made [], place t ≠ i := by
    intro t ht hi
    refine hmaking.fresh (hi ▸ ?_)
    cases t with
    | directory p => exact Fs.mem_of_slots (h.dir ht)
    | object k => exact Dict.mem_iff_get?_eq_some.mpr ⟨_, h.obj ht⟩
  have hself : Function.update place m.tag i m.tag = i := Function.update_self _ _ _
  have htags : ∀ {t}, t ∈ tags (made ++ [m]) [] ↔ t ∈ tags made [] ∨ t = m.tag := by
    intro t
    rw [tags_append, List.mem_append, List.mem_singleton]
  have hparent : m.path.dropLast = q := by rw [hf.path, List.dropLast_concat]
  have hslot : m.slot (Function.update place m.tag i) [] = some (n, i) := by
    rw [slot_of_live hf.path List.not_mem_nil, hself]
  refine ⟨?_, fun {s t} hs ht heq ↦ ?_, fun {j} hj ↦ ?_, fun {p} hp ↦ ?_, fun {k} hk ↦ ?_⟩
  · rw [hold _ List.mem_cons_self, h.root]
  · rcases htags.mp hs with hs | rfl
    · rcases htags.mp ht with ht | rfl
      · rw [hold s hs, hold t ht] at heq
        exact h.inj hs ht heq
      · rw [hold s hs, hself] at heq
        exact absurd heq (hnew s hs)
    · rcases htags.mp ht with ht | rfl
      · rw [hold t ht, hself] at heq
        exact absurd heq.symm (hnew t ht)
      · rfl
  · rcases hmaking.only hj with hj | rfl
    · obtain ⟨t, ht, rfl⟩ := h.only hj
      exact ⟨t, htags.mpr (.inl ht), hold t ht⟩
    · exact ⟨m.tag, htags.mpr (.inr rfl), hself⟩
  · rcases htags.mp hp with hp | htagp
    · rw [hold _ hp, slotsOf_append, slotsOf_congr ho hold hp, hparent, hslot]
      by_cases hqp : q = p
      · subst hqp
        rw [hmaking.entered, if_pos rfl, enterSlot_of_full none_notMem_slotsOf]
      · have hne : place (.directory p) ≠ place (.directory q) := fun heq ↦
          hqp (Tag.directory.inj (h.inj hp hf.parent heq)).symm
        rw [if_neg hqp, List.append_nil, ← h.dir hp, Fs.slots?, hmaking.get?_of_ne hne (hnew _ hp), Fs.slots?]
    · -- the new directory holds no names yet
      obtain ⟨hkey, hpath⟩ := tag_eq_directory.mp htagp.symm
      have hempty : made.filter (·.path.dropLast = p) = [] := by
        refine List.filter_eq_nil_iff.mpr fun m' hm' hp' ↦ ?_
        obtain ⟨q', n', hpath', -, hq'⟩ := ho.named hm'
        rw [decide_eq_true_eq, hpath', List.dropLast_concat] at hp'
        exact htag (htagp ▸ hp' ▸ hq')
      have hqp : ¬ q = p := by
        rintro rfl
        exact htag (htagp ▸ hf.parent)
      have hup : Function.update place m.tag i (.directory p.dropLast) = place (.directory q) := by
        rw [← hpath, hparent]
        exact hold _ hf.parent
      rw [htagp, hself, hdir hkey, slotsOf, List.filter_append, hempty, List.nil_append, hup, htagp, hself]
      simp [hparent, hqp]
  · rcases htags.mp hk with hk | htagk
    · have hne : m.key ≠ some k := fun hkey ↦ htag (tag_eq_object.mpr hkey ▸ hk)
      have hdne : place (.object k) ≠ place (.directory q) := fun heq ↦ by cases h.inj hk hf.parent heq
      rw [hold _ hk, hmaking.get?_of_ne hdne (hnew _ hk), h.obj hk, List.filter_append]
      simp [hne]
    · have hkey := tag_eq_object.mp htagk.symm
      have hnone : made.filter (·.key = some k) = [] := by
        refine List.filter_eq_nil_iff.mpr fun m' hm' hkey' ↦ ?_
        rw [decide_eq_true_eq] at hkey'
        exact htag (htagk ▸ mem_tags.mpr (.inr ⟨m', hm', List.not_mem_nil, tag_eq_object.mpr hkey'⟩))
      rw [htagk, hself, hobj k hkey, List.filter_append, hnone]
      simp [hkey]

end Growing

theorem Planted.refresh (h : Planted place look made gone fs) : Planted place look made gone fs.refresh :=
  ⟨h.root, h.inj, h.only, h.dir, h.obj⟩

/-- The inodes and the slots are all that matters, and of a directory its slots. -/
theorem Planted.congr (h : Planted place look made gone fs) (hslots : ∀ i, fs'.slots? i = fs.slots? i)
    (hmem : ∀ i, i ∈ fs'.inodes → i ∈ fs.inodes)
    (hobj : ∀ k, .object k ∈ tags made gone →
      fs'.inodes.get? (place (.object k)) = fs.inodes.get? (place (.object k))) :
    Planted place look made gone fs' where
  root := h.root
  inj := h.inj
  only hi := h.only (hmem _ hi)
  dir hp := (hslots _).trans (h.dir hp)
  obj hk := (hobj _ hk).trans (h.obj hk)

/-- One more name for an object. -/
theorem Planted.alias (h : Planted place look made [] fs) (hf : Fits made m q n)
    (hkey : m.key = some k) (hk : .object k ∈ tags made []) (time : Time) :
    Planted place look (made ++ [m]) [] (Fs.modify (fs.modify (place (.directory q)) fun p ↦
      { p with content := .directory (enterSlot n (place (.object k)) (slotsOf place made [] q)), mtime := time })
      (place (.object k)) fun p ↦ { p with nlink := p.nlink + 1 }) := by
  have htag : m.tag = .object k := tag_eq_object.mpr hkey
  have htags : ∀ {t}, t ∈ tags (made ++ [m]) [] ↔ t ∈ tags made [] := by
    intro t
    rw [tags_append, List.mem_append, List.mem_singleton, htag]
    exact or_iff_left_of_imp fun ht ↦ ht ▸ hk
  have hparent : m.path.dropLast = q := by rw [hf.path, List.dropLast_concat]
  have hslot : m.slot place [] = some (n, place (.object k)) := by
    rw [slot_of_live hf.path List.not_mem_nil, htag]
  have hdk : place (.directory q) ≠ place (.object k) := fun heq ↦ by cases h.inj hf.parent hk heq
  refine ⟨h.root, fun hs ht ↦ h.inj (htags.mp hs) (htags.mp ht), fun {j} hj ↦ ?_, fun {p} hp ↦ ?_, fun {l} hl ↦ ?_⟩
  · obtain ⟨t, ht, rfl⟩ := h.only (Fs.mem_modify.mp (Fs.mem_modify.mp hj))
    exact ⟨t, htags.mpr ht, rfl⟩
  · rw [htags] at hp
    have hlinks := Fs.slots?_modify (f := fun p ↦ { p with nlink := p.nlink + 1 }) fun _ ↦ rfl
    rw [hlinks, Fs.slots?_setSlots (h.dir hf.parent), slotsOf_append, hparent, hslot]
    by_cases hqp : q = p
    · rw [hqp, if_pos rfl, if_pos rfl, enterSlot_of_full none_notMem_slotsOf]
    · rw [if_neg fun heq ↦ hqp (Tag.directory.inj (h.inj hf.parent hp heq)), if_neg hqp, List.append_nil, h.dir hp]
  · rw [htags] at hl
    have hdl : place (.directory q) ≠ place (.object l) := fun heq ↦ by cases h.inj hf.parent hl heq
    rw [Fs.get?_modify, Fs.get?_modify, if_neg hdl, h.obj hl, List.filter_append]
    by_cases hkl : k = l
    · rw [if_pos (by rw [hkl])]
      simp [hkey, hkl]
    · rw [if_neg fun heq ↦ hkl (Tag.object.inj (h.inj hk hl heq))]
      simp [hkey, hkl]

/-- The only name of an object is taken away, and the object with it. -/
theorem Planted.drop (h : Planted place look made gone fs) (ho : Orderly made gone) (hm : m ∈ made)
    (hpath : m.path = q ++ [n]) (hlive : m.path ∉ gone) (hkey : m.key = some k)
    (hone : ∀ m' ∈ made, m'.key = some k → m' = m) (hn : ¬ isDot n) (hq : .directory q ∈ tags made gone)
    (time : Time) : Planted place look made (m.path :: gone) (dropLink (fs.modify (place (.directory q)) fun p ↦
      { p with content := .directory (clearSlot n (slotsOf place made gone q)), mtime := time })
      (place (.object k))) := by
  have htags : ∀ {t}, t ∈ tags made (m.path :: gone) ↔ t ∈ tags made gone ∧ t ≠ .object k :=
    mem_tags_cons ho hm hkey hone
  have hk : .object k ∈ tags made gone := mem_tags.mpr (.inr ⟨m, hm, hlive, tag_eq_object.mpr hkey⟩)
  have hdk : place (.directory q) ≠ place (.object k) := fun heq ↦ by cases h.inj hq hk heq
  have hcount : (made.filter (·.key = some k)).length = 1 := by
    have hsingle : made.filter (·.key = some k) = [m] := by
      refine List.Perm.eq_singleton ((List.perm_ext_iff_of_nodup (ho.nodup.of_map.filter _)
        (List.nodup_singleton m)).mpr fun m' ↦ ?_)
      rw [List.mem_filter, decide_eq_true_eq, List.mem_singleton]
      exact ⟨fun h ↦ hone m' h.1 h.2, fun heq ↦ heq ▸ ⟨hm, hkey⟩⟩
    rw [hsingle, List.length_singleton]
  set cleared := fs.modify (place (.directory q)) fun p ↦
    { p with content := .directory (clearSlot n (slotsOf place made gone q)), mtime := time }
  have hfreed : dropLink cleared (place (.object k)) = cleared.free (place (.object k)) := by
    refine if_pos ⟨?_, (fun heq ↦ by cases h.inj hk List.mem_cons_self (heq.trans h.root.symm))⟩
    rw [Fs.get?_modify, if_neg hdk, h.obj hk, hcount]
    rfl
  have hslots : ∀ {p}, .directory p ∈ tags made gone →
      (cleared.free (place (.object k))).slots? (place (.directory p)) = cleared.slots? (place (.directory p)) := by
    intro p hp
    rw [Fs.slots?, Fs.get?_free, if_neg fun heq ↦ (by cases h.inj hp hk heq), Fs.slots?]
  rw [hfreed]
  refine ⟨h.root, fun hs ht ↦ h.inj (htags.mp hs).1 (htags.mp ht).1, fun {j} hj ↦ ?_, fun {p} hp ↦ ?_,
    fun {l} hl ↦ ?_⟩
  · rw [Dict.mem_def, Fs.get?_free] at hj
    split at hj
    · exact absurd rfl hj
    · rename_i hjk
      obtain ⟨t, ht, rfl⟩ := h.only (Fs.mem_modify.mp hj)
      exact ⟨t, htags.mpr ⟨ht, fun heq ↦ hjk (heq ▸ rfl)⟩, rfl⟩
  · obtain ⟨hp, -⟩ := htags.mp hp
    rw [hslots hp, Fs.slots?_setSlots (h.dir hq)]
    by_cases hqp : q = p
    · subst hqp
      rw [if_pos rfl, clearSlot_slotsOf ho hn, hpath]
    · rw [if_neg fun heq ↦ hqp (Tag.directory.inj (h.inj hq hp heq)), hpath, slotsOf_cons_of_ne (Ne.symm hqp), h.dir hp]
  · obtain ⟨hl, hlk⟩ := htags.mp hl
    rw [Fs.get?_free, if_neg fun heq ↦ hlk (h.inj hl hk heq), Fs.get?_modify,
      if_neg fun heq ↦ (by cases h.inj hq hl heq), h.obj hl]

end Planted

end S8000.Restore.V7
