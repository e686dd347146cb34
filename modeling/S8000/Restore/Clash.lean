import S8000.Restore.DumpRun

namespace S8000.Restore

open Foundation Foundation.Bytes Foundation.Numerals Foundation.Namespace V7
open Dump (Text Dinode Inodes Blocks Resolves direntsOf isDir isDot)

namespace V7

variable {host : Host} {fs fs' fs'' : Fs} {d i k : ℕ} {n m path : Text} {p q : List Text} {ss : List Slot}

section Slots

theorem distinct_nil : Distinct [] := List.nodup_nil

theorem distinct_cons_none : Distinct (none :: ss) ↔ Distinct ss := Iff.rfl

theorem distinct_cons_some : Distinct (some (n, i) :: ss) ↔ lookup n ss = none ∧ Distinct ss := by
  rw [Distinct, List.reduceOption_cons_of_some, List.map_cons, List.nodup_cons, lookup_eq_none]
  refine and_congr_left fun _ ↦ ?_
  simp [List.reduceOption_mem_iff]

theorem distinct_enterSlot (hd : Distinct ss) (hn : lookup n ss = none) : Distinct (enterSlot n i ss) := by
  induction ss with
  | nil => exact distinct_cons_some.mpr ⟨rfl, distinct_nil⟩
  | cons s ss ih =>
    cases s with
    | none => exact distinct_cons_some.mpr ⟨hn, hd⟩
    | some e =>
      obtain ⟨l, k⟩ := e
      obtain ⟨hl, hd⟩ := distinct_cons_some.mp hd
      rw [lookup] at hn
      split at hn
      · cases hn
      · rename_i hln
        refine distinct_cons_some.mpr ⟨?_, ih hd hn⟩
        rw [lookup_enterSlot hn, if_neg hln, hl]

/-- The name that is cleared was there once. -/
theorem lookup_clearSlot_self (hd : Distinct ss) : lookup n (clearSlot n ss) = none := by
  induction ss with
  | nil => rfl
  | cons s ss ih =>
    cases s with
    | none => exact ih hd
    | some e =>
      obtain ⟨l, k⟩ := e
      obtain ⟨hl, hd⟩ := distinct_cons_some.mp hd
      rw [clearSlot]
      split
      · rename_i hln
        exact hln ▸ hl
      · rename_i hln
        rw [lookup, if_neg hln, ih hd]

theorem distinct_clearSlot (hd : Distinct ss) : Distinct (clearSlot n ss) := by
  induction ss with
  | nil => exact hd
  | cons s ss ih =>
    cases s with
    | none => exact ih hd
    | some e =>
      obtain ⟨l, k⟩ := e
      obtain ⟨hl, hd⟩ := distinct_cons_some.mp hd
      rw [clearSlot]
      split
      · exact hd
      · rename_i hln
        refine distinct_cons_some.mpr ⟨?_, ih hd⟩
        rw [lookup_clearSlot_of_ne hln, hl]

end Slots

section Wellnamed

/-- Every directory has its two entries, and no name twice. -/
structure Wellnamed (ss : List Slot) : Prop where
  distinct : Distinct ss
  dots {n : Text} : isDot n → ∃ i, lookup n ss = some i

theorem Wellnamed.enter (h : Wellnamed ss) (hn : lookup n ss = none) : Wellnamed (enterSlot n i ss) where
  distinct := distinct_enterSlot h.distinct hn
  dots {m} hm := by
    rw [lookup_enterSlot hn]
    split
    · exact ⟨i, rfl⟩
    · exact h.dots hm

theorem Wellnamed.clear (h : Wellnamed ss) (hn : ¬ isDot n) : Wellnamed (clearSlot n ss) where
  distinct := distinct_clearSlot h.distinct
  dots {m} hm := by
    have hne : m ≠ n := fun heq ↦ hn (heq ▸ hm)
    rw [lookup_clearSlot_of_ne hne]
    exact h.dots hm

/-- The directories of a file system are well named. -/
def Fs.Named (fs : Fs) : Prop := ∀ i ss, fs.slots? i = some ss → Wellnamed ss

theorem Fs.Named.congr (h : fs.Named) (hslots : ∀ i, fs'.slots? i = fs.slots? i) : fs'.Named := fun i ss hss ↦
  h i ss ((hslots i).symm.trans hss)

theorem Fs.Named.making (h : fs.Named) (hm : Making fs d n i ss fs') (hi : fs'.slots? i = none) : fs'.Named := by
  intro j ss' hss
  by_cases hj : j = d
  · rw [hj, hm.entered] at hss
    obtain rfl := Option.some.inj hss
    exact (h d ss hm.parent).enter hm.missing
  · by_cases hji : j = i
    · rw [hji, hi] at hss
      cases hss
    · rw [Fs.slots?, hm.get?_of_ne hj hji] at hss
      exact h j ss' hss

end Wellnamed

section Narrows

/-- No directory of `fs'` has an entry that it has not in `fs`. -/
def Narrows (fs fs' : Fs) : Prop := ∀ i n k, fs'.child i n = some k → fs.child i n = some k

theorem Narrows.trans (h : Narrows fs fs') (h' : Narrows fs' fs'') : Narrows fs fs'' := fun i n k hk ↦
  h i n k (h' i n k hk)

theorem Narrows.walk (h : Narrows fs fs') {j : ℕ} (hw : fs'.walk i p = .ok j) : fs.walk i p = .ok j := by
  induction p generalizing i with
  | nil => exact hw
  | cons n p ih =>
    rw [Fs.walk_eq_ok, resolve, Option.bind_eq_some_iff] at hw
    obtain ⟨k, hk, hw⟩ := hw
    rw [Fs.walk_cons_of_child (h i n k hk)]
    exact ih (Fs.walk_eq_ok.mpr hw)

section Unlink

theorem nameiDelete_cases (fs : Fs) (h : components path = q ++ [n]) :
    (∃ e, fs.nameiDelete path = .error e ∧ ∀ k, fs.walk rootIno (q ++ [n]) ≠ .ok k) ∨
    ∃ d ss k, fs.nameiDelete path = .ok (d, n, k) ∧ fs.walk rootIno q = .ok d ∧ fs.slots? d = some ss ∧
      lookup n ss = some k := by
  unfold Fs.nameiDelete Fs.parentOf
  rw [h, List.getLast?_concat, List.dropLast_concat, Fs.walk_append]
  cases hd : fs.walk rootIno q with
  | error e => exact .inl ⟨e, rfl, nofun⟩
  | ok d =>
    cases hss : fs.slots? d with
    | none => exact .inl ⟨.enotdir, by simp [bind, Except.bind, hss], by simp [Except.bind, Fs.walk, hss]⟩
    | some ss =>
      cases hn : lookup n ss with
      | none =>
        exact .inl ⟨.enoent, by simp [bind, Except.bind, hss, hn, throw, throwThe, MonadExceptOf.throw],
          by simp [Except.bind, Fs.walk, hss, hn]⟩
      | some k => exact .inr ⟨d, ss, k, by simp [bind, Except.bind, pure, Except.pure, hss, hn], rfl, hss, hn⟩

/-- What unlinking a name leaves: it is gone, and no name is new. -/
structure Unlinked (fs fs' : Fs) (p : List Text) : Prop where
  named : fs'.Named
  narrows : Narrows fs fs'
  gone {k : ℕ} : fs'.walk rootIno p ≠ .ok k

theorem v7fsUnlink_unlinked (host : Host) (h : fs.Named) (hpath : components path = q ++ [n]) (hn : ¬ isDot n) :
    Unlinked fs (v7fsUnlink host fs path).1 (q ++ [n]) := by
  rcases nameiDelete_cases fs.refresh hpath with ⟨e, he, hmissing⟩ | ⟨d, ss, k, hk, hq, hss, hl⟩
  · rw [v7fsUnlink_of_missing he]
    exact ⟨h, fun _ _ _ hc ↦ hc, fun {k} ↦ hmissing k⟩
  · have hss' : fs.slots? d = some ss := hss
    rw [v7fsUnlink_of_found hss' hk]
    set cleared := fs.refresh.modify d fun p ↦
      { p with content := .directory (clearSlot n ss), mtime := now host fs.refresh }
    have hcleared : ∀ j, cleared.slots? j = if d = j then some (clearSlot n ss) else fs.slots? j :=
      Fs.slots?_setSlots hss
    -- dropping the link takes slots away at most
    have hdrop : ∀ j ss', (dropLink cleared k).slots? j = some ss' → cleared.slots? j = some ss' := by
      intro j ss' hj
      by_cases hjk : j = k
      · rw [hjk, dropLink] at hj
        split at hj
        · rw [Fs.slots?, Fs.get?_free, if_pos rfl] at hj
          cases hj
        · have hlinks := Fs.slots?_modify (f := fun p : Inode ↦ { p with nlink := p.nlink - 1 }) fun _ ↦ rfl
          rw [hlinks] at hj
          rwa [hjk]
      · rwa [slots?_dropLink hjk] at hj
    have hslots : ∀ {j ss'}, (dropLink cleared k).slots? j = some ss' →
        d = j ∧ ss' = clearSlot n ss ∨ d ≠ j ∧ fs.slots? j = some ss' := by
      intro j ss' hj
      have hj := hdrop j ss' hj
      rw [hcleared] at hj
      split at hj
      · exact .inl ⟨‹_›, (Option.some.inj hj).symm⟩
      · exact .inr ⟨‹_›, hj⟩
    have hnarrows : Narrows fs (dropLink cleared k) := by
      intro j m x hc
      obtain ⟨ss', hj, hx⟩ := Fs.child_eq_some.mp hc
      rcases hslots hj with ⟨rfl, rfl⟩ | ⟨-, hj⟩
      · rw [Fs.child_of_slots hss']
        by_cases hmn : m = n
        · rw [hmn, lookup_clearSlot_self (h d ss hss').distinct] at hx
          cases hx
        · rwa [lookup_clearSlot_of_ne hmn] at hx
      · rwa [Fs.child_of_slots hj]
    refine ⟨fun j ss' hj ↦ ?_, hnarrows, fun {x} hx ↦ ?_⟩
    · rcases hslots hj with ⟨rfl, rfl⟩ | ⟨-, hj⟩
      · exact (h d ss hss').clear hn
      · exact h j ss' hj
    · rw [Fs.walk_eq_ok, resolve_concat, Option.bind_eq_some_iff] at hx
      obtain ⟨d', hd', hx⟩ := hx
      have hd := hnarrows.walk (Fs.walk_eq_ok.mpr hd')
      rw [show fs.walk rootIno q = .ok d from (Fs.walk_congr (fs.slots?_refresh ·) _ _).symm.trans hq] at hd
      obtain rfl := Except.ok.inj hd
      obtain ⟨ss', hj, hx⟩ := Fs.child_eq_some.mp hx
      rcases hslots hj with ⟨-, rfl⟩ | ⟨hne, -⟩
      · rw [lookup_clearSlot_self (h d ss hss').distinct] at hx
        cases hx
      · exact hne rfl

end Unlink

end Narrows

end V7

section Run

variable {host : Host} {st : Replay} {e : Entry} {es : List Entry} {q : List Text} {n : Text}

/-- An empty file leaves the directories well named. -/
theorem step_empty_named (hroomy : Roomy host) (h : st.fs.Named) (he : e.kind = 'f')
    (hfile : host.files e.aux = some []) : (step host st e).fs.Named := by
  have hopen : (v7fsOpen host st.fs e.path (e.mode.toNat &&& 0o7777)).1.Named := by
    have hrefresh : st.fs.refresh.Named := h
    unfold v7fsOpen
    dsimp only
    split
    · exact hrefresh
    · rename_i d n hcreate
      obtain ⟨ss, hss, hn⟩ := Fs.nameiCreate_inr hcreate
      rcases maknode_cases host n (.regular []) (e.mode.toNat &&& 0o7777 &&& 0o6777) hss hn (fun _ ↦ rfl) with
        ⟨i, fs', hmk, hmaking, ⟨p, hp, hpc, -⟩, -⟩ | ⟨hfull, -⟩
      · rw [hmk]
        refine hrefresh.making hmaking ?_
        rw [Fs.slots?, hp, Option.bind_some, hpc]
        rfl
      · exact absurd hroomy hfull
    · rename_i i hcreate
      split
      · exact hrefresh
      · exact hrefresh
      · rename_i data hdata
        intro j ss hss
        rw [Fs.slots?, Fs.get?_modify] at hss
        split at hss
        · cases hget : st.fs.refresh.inodes.get? j with
          | none =>
            rw [hget] at hss
            cases hss
          | some p =>
            rw [hget] at hss
            cases hss
        · exact hrefresh j ss hss
      · split <;> exact hrefresh
  have hcopy : (copyFile host st.fs e.aux e.path e.mode.toNat).1.Named := by
    rw [copyFile, hfile]
    dsimp only
    split
    · exact hopen
    · exact hopen
  have hperform : perform host st.fs e = copyFile host st.fs e.aux e.path e.mode.toNat := by
    rw [perform, he]
    rfl
  rw [step, hperform]
  split
  · exact Fs.Named.congr hcopy (slots?_setMetadata ·)
  · exact hcopy

theorem step_unlink_unlinked (host : Host) (h : st.fs.Named) (he : e.kind = 'u') (hpath : components e.path = q ++ [n])
    (hn : ¬ isDot n) : Unlinked st.fs (step host st e).fs (q ++ [n]) := by
  have hperform : perform host st.fs e = v7fsUnlink host st.fs e.path := by
    rw [perform, he]
    rfl
  have hstep : (step host st e).fs = (v7fsUnlink host st.fs e.path).1 := by
    rw [step, hperform]
    simp [he]
  rw [hstep]
  exact v7fsUnlink_unlinked host h hpath hn

/-- Names that are unlinked do not come back. -/
theorem run_unlink (host : Host) (h : st.fs.Named)
    (hes : ∀ e ∈ es, e.kind = 'u' ∧ ∃ q n, components e.path = q ++ [n] ∧ ¬ isDot n) :
    (es.foldl (step host) st).fs.Named ∧ Narrows st.fs (es.foldl (step host) st).fs ∧
      ∀ e ∈ es, ∀ k, (es.foldl (step host) st).fs.walk rootIno (components e.path) ≠ .ok k := by
  induction es generalizing st with
  | nil => exact ⟨h, fun _ _ _ hc ↦ hc, nofun⟩
  | cons e es ih =>
    obtain ⟨⟨he, q, n, hpath, hn⟩, hes⟩ := List.forall_mem_cons.mp hes
    have hone := step_unlink_unlinked host h he hpath hn
    obtain ⟨hnamed, hnarrows, hgone⟩ := ih hone.named hes
    rw [List.foldl_cons]
    refine ⟨hnamed, hone.narrows.trans hnarrows, List.forall_mem_cons.mpr ⟨fun k hk ↦ ?_, hgone⟩⟩
    rw [hpath] at hk
    exact hone.gone (hnarrows.walk hk)

theorem run_empty_named (hroomy : Roomy host) (h : st.fs.Named)
    (hes : ∀ e ∈ es, e.kind = 'f' ∧ host.files e.aux = some []) : (es.foldl (step host) st).fs.Named := by
  induction es generalizing st with
  | nil => exact h
  | cons e es ih =>
    obtain ⟨⟨he, hfile⟩, hes⟩ := List.forall_mem_cons.mp hes
    exact ih (step_empty_named hroomy h he hfile) hes

/-- What the replay makes has well-named directories. -/
theorem V7.Planted.named {κ : Type} [DecidableEq κ] {place : Tag κ → ℕ} {look : κ → Inode} {made : List (Made κ)}
    {gone : List (List Text)} {fs : Fs} (h : Planted place look made gone fs) (ho : Orderly made gone)
    (hlook : ∀ k, (look k).content.slots? = none) : fs.Named := by
  intro i ss hss
  obtain ⟨p, -, rfl, rfl⟩ := h.slots_cases hlook hss
  refine ⟨distinct_slotsOf ho p, fun {n} hn ↦ ?_⟩
  rcases hn with rfl | rfl
  · exact ⟨_, (lookup_eq_some (distinct_slotsOf ho p)).mpr ((mem_slotsOf_dot ho).mpr rfl)⟩
  · exact ⟨_, (lookup_eq_some (distinct_slotsOf ho p)).mpr ((mem_slotsOf_dotdot ho).mpr rfl)⟩

end Run

section Tree

variable {inodes : Inodes} {blocks : Blocks} {fs : Fs} {ρ : ℕ → ℕ} {p : List Text} {k : ℕ} {n : Text}

/-- A directory of the restored tree and its names. -/
theorem SameTree.lookup (htree : Treelike inodes blocks) (h : SameTree inodes blocks fs ρ)
    (hp : Reached inodes blocks p k) (hk : isDir inodes k) {i : ℕ} :
    fs.child (ρ k) n = some i ↔ ∃ j, Dump.Entry inodes blocks k n j ∧ ρ j = i := by
  obtain ⟨ss, hss, hperm⟩ := h.directory hp hk
  have hdistinct : Distinct ss := by
    rw [Distinct, (hperm.map Prod.fst).nodup_iff, List.map_map]
    exact htree.distinct k
  rw [Fs.child_of_slots hss, lookup_eq_some hdistinct, ← List.reduceOption_mem_iff, hperm.mem_iff, List.mem_map]
  constructor
  · rintro ⟨⟨j, m⟩, hj, heq⟩
    obtain ⟨rfl, rfl⟩ := Prod.mk.inj heq
    exact ⟨j, hj, rfl⟩
  · rintro ⟨j, hj, rfl⟩
    exact ⟨(j, n), hj, rfl⟩

/-- The paths of the dump lead where they led. -/
theorem SameTree.walk (htree : Treelike inodes blocks) (h : SameTree inodes blocks fs ρ)
    (hp : Reached inodes blocks p k) : fs.walk rootIno p = .ok (ρ k) := by
  induction p using List.reverseRecOn generalizing k with
  | nil =>
    obtain rfl : 2 = k := hp.2
    rw [h.root]
    rfl
  | append_singleton p n ih =>
    obtain ⟨i, hi, he, -⟩ := hp.parent
    have hchild := (h.lookup htree hi he.isDir).mpr ⟨k, he, rfl⟩
    rw [Fs.walk_append, ih hi, Except.bind, Fs.walk_cons_of_child hchild]
    rfl

theorem SameTree.dotted (htree : Treelike inodes blocks) (h : SameTree inodes blocks fs ρ) (hnamed : fs.Named) :
    Dotted inodes blocks := by
  intro p k n hp hk hn
  obtain ⟨ss, hss, -⟩ := h.directory hp hk
  obtain ⟨i, hi⟩ := (hnamed _ ss hss).dots hn
  obtain ⟨j, hj, -⟩ := (h.lookup htree hp hk).mp ((Fs.child_of_slots hss).trans hi)
  exact ⟨j, hj⟩

end Tree

end S8000.Restore
