import S8000.Filsys.Runs
import S8000.Foundation.IndexTree

namespace S8000.Filsys

open Foundation Foundation.Bytes Foundation.Buffer

def NINDIR : ℕ := 128
def BSIZE : ℕ := 512

section Code

inductive Rwflg
  | read
  | write

/-- What `bmap` returns: a block, `-1` for none, or zero for a file that is too large. -/
inductive Mapped
  | block (nb : ℤ)
  | none
  | error

/-- An entry of an indirect block. -/
def bap (b : Buffer) (i : ℕ) : ℤ := long b (4 * i)

def bdwrite (v : Volume) (bno : ℤ) (c : Buffer) : Volume := { v with cache := Function.update v.cache bno (some c) }

/-- The loop of `bmap` through the indirect blocks, with the number of those to come. -/
def indirect (rwflg : Rwflg) (bn : ℕ) : ℕ → Volume → ℤ → Volume × Option ℤ
  | 0, v, nb => (v, some nb)
  | sh + 1, v, nb =>
    let bp := v.view nb
    let i := bn / NINDIR ^ sh % NINDIR
    if bap bp i ≠ 0 then indirect rwflg bn sh v (bap bp i)
    else
      match rwflg with
      | .read => (v, none)
      | .write =>
        match alloc v with
        | (w, none) => (w, none)
        | (w, some b) => indirect rwflg bn sh (bdwrite w nb (setLong bp (4 * i) b)) b

/-- The loop of `bmap` that finds how many levels of indirection there are. -/
def levels : ℕ → ℕ → ℕ → Option (ℕ × ℕ)
  | 0, _, _ => none
  | j + 1, sh, bn => if bn < NINDIR ^ sh then some (sh, bn) else levels j (sh + 1) (bn - NINDIR ^ sh)

/-- The address in the inode that a block belongs to, its levels of indirection, and the index below. -/
def slot (bn : ℕ) : Option (ℕ × ℕ × ℕ) :=
  if bn < NADDR - 3 then some (bn, 0, 0)
  else (levels 3 1 (bn - (NADDR - 3))).map fun (sh, rest) ↦ (NADDR - 4 + sh, sh, rest)

/-- An address in the inode. -/
def address (rwflg : Rwflg) (v : Volume) (ip : File) (i : ℕ) : Volume × File × Option ℤ :=
  if ip.iAddr i ≠ 0 then (v, ip, some (ip.iAddr i))
  else
    match rwflg with
    | .read => (v, ip, none)
    | .write =>
      match alloc v with
      | (w, none) => (w, ip, none)
      | (w, some b) => (w, { ip with iAddr := Function.update ip.iAddr i b }, some b)

def mapped (ip : File) : Volume × Option ℤ → Volume × File × Mapped
  | (u, none) => (u, ip, .none)
  | (u, some b) => (u, ip, .block b)

def bmap (rwflg : Rwflg) (v : Volume) (ip : File) (bn : ℕ) : Volume × File × Mapped :=
  match slot bn with
  | none => (v, ip, .error)
  | some (i, sh, rest) =>
    match address rwflg v ip i with
    | (w, ip', none) => (w, ip', .none)
    | (w, ip', some nb) => mapped ip' (indirect rwflg rest sh w nb)

end Code

section Trees

variable {view view' : ℤ → Buffer} {level : ℕ} {b : ℤ} {j : ℕ}

/-- The blocks that an address stands for, indirect ones included. -/
def tree (view : ℤ → Buffer) (level : ℕ) (b : ℤ) : List ℤ := IndexTree.nodes 0 NINDIR (fun c k ↦ bap (view c) k) level b

def leaf (view : ℤ → Buffer) (level : ℕ) (b : ℤ) (j : ℕ) : ℤ :=
  IndexTree.find 0 NINDIR (fun c k ↦ bap (view c) k) level b j

/-- A block that is missing has zeros. -/
def leafContents (view : ℤ → Buffer) (level : ℕ) (b : ℤ) (j : ℕ) : Buffer :=
  if leaf view level b j = 0 then cleared else view (leaf view level b j)

theorem tree_congr (h : ∀ c ∈ tree view level b, view' c = view c) : tree view' level b = tree view level b :=
  IndexTree.nodes_congr fun c hc k ↦ by rw [h c hc]

theorem leaf_mem (h : leaf view level b j ≠ 0) : leaf view level b j ∈ tree view level b :=
  IndexTree.find_mem (by decide) h

theorem leaf_congr (h : ∀ c ∈ tree view level b, view' c = view c) (j : ℕ) :
    leaf view' level b j = leaf view level b j :=
  IndexTree.find_congr (by decide) (fun c hc k ↦ by rw [h c hc]) j

theorem leafContents_congr (h : ∀ c ∈ tree view level b, view' c = view c) (j : ℕ) :
    leafContents view' level b j = leafContents view level b j := by
  rw [leafContents, leafContents, leaf_congr h]
  split
  · rfl
  · rename_i hne
    exact h _ (leaf_mem hne)

theorem bap_cleared (i : ℕ) : bap cleared i = 0 := by
  have hushort (off : ℕ) : ushort cleared off = 0 := ushort_of_zero rfl rfl
  unfold bap long ulong
  rw [hushort, hushort, Nat.zero_mul, Nat.zero_add, Nat.cast_zero, Int.zero_bmod]

theorem bap_setLong {c : Buffer} {i : ℕ} (h : -2147483648 ≤ b ∧ b < 2147483648) : bap (setLong c (4 * i) b) i = b :=
  long_setLong h

theorem bap_setLong_of_ne {c : Buffer} {i k : ℕ} (h : k ≠ i) : bap (setLong c (4 * i) b) k = bap c k :=
  long_setLong_of_apart (by omega)

theorem tree_of_cleared (hb : b ≠ 0) (h : view b = cleared) (level : ℕ) : tree view level b = [b] := by
  cases level with
  | zero => exact if_neg hb
  | succ level =>
    rw [tree, IndexTree.nodes_succ hb, List.flatMap_eq_nil_iff.mpr]
    intro k _
    rw [h, bap_cleared]
    exact IndexTree.nodes_null level

theorem leafContents_of_cleared (hb : b ≠ 0) (h : view b = cleared) (level j : ℕ) :
    leafContents view level b j = cleared := by
  cases level with
  | zero => exact (if_neg hb).trans h
  | succ level =>
    have hzero : leaf view (level + 1) b j = 0 := by
      rw [leaf, IndexTree.find_succ hb, h, bap_cleared]
      exact IndexTree.find_null level j
    exact if_pos hzero

end Trees

section Steps

variable {isize fsize : ℤ} {nobody owned : List ℤ} {s t : State} {v w : Volume} {b c : ℤ}

/-- What the data of the files goes through: blocks are taken, written and given back. -/
inductive Moves (start : State) : State → Prop
  | start : Moves start start
  | alloc {s : State} {w : Volume} {r : Option ℤ} (h : Moves start s) (halloc : alloc s.v = (w, r)) :
      Moves start ⟨w, r.toList ++ s.owned⟩
  | free {s : State} {b : ℤ} {w : Volume} (h : Moves start s) (hb : b ∈ s.owned) (hfree : free s.v b = w) :
      Moves start ⟨w, s.owned.filter (· ≠ b)⟩
  | write {s : State} {b : ℤ} (h : Moves start s) (hb : b ∈ s.owned) (c : Buffer) : Moves start ⟨bdwrite s.v b c, s.owned⟩

theorem Moves.trans {r : State} (h : Moves r s) (h' : Moves s t) : Moves r t := by
  induction h' with
  | start => exact h
  | alloc _ halloc ih => exact ih.alloc halloc
  | free _ hb hfree ih => exact ih.free hb hfree
  | write _ hb c ih => exact ih.write hb c

theorem view_bdwrite_self (v : Volume) (b : ℤ) (c : Buffer) : (bdwrite v b c).view b = c := by
  change (Function.update v.cache b (some c) b).getD _ = c
  rw [Function.update_self, Option.getD_some]

theorem view_bdwrite_of_ne (h : c ≠ b) (v : Volume) (x : Buffer) : (bdwrite v b x).view c = v.view c := by
  change (Function.update v.cache b (some x) c).getD _ = v.view c
  rw [Function.update_of_ne h]
  rfl

/-- A block from the free list. -/
structure Given (s : State) (w : Volume) (b : ℤ) : Prop where
  run : Moves s ⟨w, b :: s.owned⟩
  new : b ∉ s.owned
  ne_zero : b ≠ 0
  range : -2147483648 ≤ b ∧ b < 2147483648
  cleared : w.view b = cleared
  frame : ∀ c, c ≠ b → w.view c = s.v.view c

/-- What `alloc` does to the contents of the blocks. -/
theorem alloc_views (h : Sound isize fsize v owned) :
    (∃ fp, alloc v = ({ v with fp }, none)) ∨
      ∃ fp b, alloc v = ({ v with fp, cache := Function.update v.cache b (some cleared) }, some b) := by
  obtain ⟨stack, hlist, -⟩ := h.accounts.blocks
  rcases List.eq_nil_or_concat stack with rfl | ⟨rest, b, rfl⟩
  · obtain ⟨fp, hempty, -⟩ := alloc_of_empty hlist h.list.le
    exact .inl ⟨fp, hempty⟩
  · rw [List.concat_eq_append] at hlist
    obtain ⟨fp, htop, -⟩ := alloc_of_top hlist h.pos h.list.le
    exact .inr ⟨fp, b, htop⟩

theorem Kept.given (h : Kept isize fsize nobody s) (halloc : Filsys.alloc s.v = (w, some b)) : Given s w b := by
  have hresult : (Filsys.alloc s.v).2 = some b := by rw [halloc]
  obtain ⟨⟨hlow, hhigh⟩, hmem, hcleared⟩ := h.sound.not_mem_of_alloc hresult
  rw [halloc] at hcleared
  have hlarge := h.sound.large
  have hfsize := long_range s.v.fp 2
  have hsize : long s.v.fp 2 = fsize := h.sound.accounts.fsize_eq
  rw [hsize] at hfsize
  rw [SUPERB] at hlarge
  refine ⟨.alloc .start halloc, fun hown ↦ hmem (List.mem_append_left _ hown), by omega, by omega, hcleared,
    fun c hc ↦ ?_⟩
  obtain ⟨fp, hnone⟩ | ⟨fp, b', hsome⟩ := alloc_views h.sound
  · rw [hnone] at halloc
    exact absurd (Prod.mk.inj halloc).2.symm (Option.some_ne_none b)
  · rw [hsome] at halloc
    obtain ⟨rfl, hb⟩ := Prod.mk.inj halloc
    obtain rfl := Option.some.inj hb
    change (Function.update s.v.cache b' (some Filsys.cleared) c).getD _ = _
    rw [Function.update_of_ne hc]
    rfl

/-- Nothing is free. -/
structure Full (isize fsize : ℤ) (nobody : List ℤ) (s : State) (w : Volume) : Prop where
  run : Moves s ⟨w, s.owned⟩
  full : ∀ b, isize ≤ b → b < fsize → b ∈ s.owned ∨ b ∈ nobody
  frame : ∀ c, w.view c = s.v.view c

theorem Kept.full (h : Kept isize fsize nobody s) (halloc : Filsys.alloc s.v = (w, none)) :
    Full isize fsize nobody s w := by
  have hresult : (Filsys.alloc s.v).2 = none := by rw [halloc]
  refine ⟨.alloc .start halloc, fun b hlow hhigh ↦ ?_, fun c ↦ ?_⟩
  · exact List.mem_append.mp (h.sound.full_of_alloc hresult hlow hhigh)
  · obtain ⟨fp, hnone⟩ | ⟨fp, b, hsome⟩ := alloc_views h.sound
    · rw [hnone] at halloc
      obtain ⟨rfl, -⟩ := Prod.mk.inj halloc
      rfl
    · rw [hsome] at halloc
      exact absurd (Prod.mk.inj halloc).2 (Option.some_ne_none b)

/-- A block that a file owns is written. -/
theorem Kept.written (h : Kept isize fsize nobody s) (hb : b ∈ s.owned) (c : Buffer) :
    Kept isize fsize nobody ⟨bdwrite s.v b c, s.owned⟩ := by
  have hrange := h.sound.owned_range b (List.mem_append_left _ hb)
  have hisize := h.sound.accounts.isize_eq
  refine @Kept.step isize fsize s _ .other nobody h trivial (.other ⟨rfl, fun a _ ha hclean ↦ ⟨rfl, ?_⟩, fun i ↦ ?_, h.sound.table⟩)
  · have hne : a ≠ b := fun heq ↦ ha (heq ▸ hb)
    exact (Function.update_of_ne hne ..).trans hclean
  · refine @spare_congr s.v (bdwrite s.v b c) rfl (fun j hj hle ↦ diMode_congr ?_) rfl i
    refine view_bdwrite_of_ne ?_ s.v c
    have hmem := itod_mem hj hle
    omega

theorem Kept.moves (h : Kept isize fsize nobody s) (hmoves : Moves s t) : Kept isize fsize nobody t := by
  induction hmoves with
  | start => exact h
  | alloc _ halloc ih => exact ih.alloc halloc
  | free _ hb hfree ih => exact ih.free hb hfree
  | write _ hb c ih => exact ih.written hb c

/-- The super block, the inodes and their table are as they were. -/
theorem Moves.frame (hmoves : Moves s t) (h : Kept isize fsize nobody s) :
    t.v.inode = s.v.inode ∧ KeepsInodes s.v.fp t.v.fp ∧
      ∀ c < isize, t.v.disk c = s.v.disk c ∧ t.v.cache c = s.v.cache c := by
  induction hmoves with
  | start => exact ⟨rfl, fun _ _ ↦ rfl, fun _ _ ↦ ⟨rfl, rfl⟩⟩
  | @alloc s' w r hmoves halloc ih =>
    obtain ⟨hinode, hkeeps, hframe⟩ := ih
    have hkept := h.moves hmoves
    have hrange := (hkept.alloc halloc).sound.owned_range
    obtain ⟨stack, hlist, -⟩ := hkept.sound.accounts.blocks
    rcases List.eq_nil_or_concat stack with rfl | ⟨rest, b, rfl⟩
    · obtain ⟨fp, hempty, hkeeps', -⟩ := alloc_of_empty hlist hkept.sound.list.le
      rw [hempty] at halloc
      obtain ⟨rfl, rfl⟩ := Prod.mk.inj halloc
      exact ⟨hinode, hkeeps.trans hkeeps', hframe⟩
    · rw [List.concat_eq_append] at hlist
      obtain ⟨fp, htop, hkeeps', -⟩ := alloc_of_top hlist hkept.sound.pos hkept.sound.list.le
      rw [htop] at halloc
      obtain ⟨rfl, rfl⟩ := Prod.mk.inj halloc
      have hlow := (hrange b (List.mem_append_left _ List.mem_cons_self)).1
      refine ⟨hinode, hkeeps.trans hkeeps', fun c hc ↦ ⟨(hframe c hc).1, ?_⟩⟩
      exact (Function.update_of_ne (hc.trans_le hlow).ne ..).trans (hframe c hc).2
  | @free s' b w hmoves hb hfree ih =>
    obtain ⟨hinode, hkeeps, hframe⟩ := ih
    have hkept := h.moves hmoves
    have hmem : b ∈ s'.owned ++ nobody := List.mem_append_left _ hb
    obtain ⟨hlow, hhigh⟩ := hkept.sound.owned_range b hmem
    obtain ⟨stack, hlist, hpartition⟩ := hkept.sound.accounts.blocks
    have hgood : ¬ badblock s'.v.fp b := by
      rw [badblock, hkept.sound.accounts.isize_eq, hkept.sound.accounts.fsize_eq]
      omega
    obtain ⟨-, hkeeps', -, hinode', hframe'⟩ :=
      free_push hlist hkept.sound.pos hkept.sound.list.le hgood ((hpartition b hlow hhigh).mp hmem)
    rw [hfree] at hkeeps' hinode' hframe'
    refine ⟨hinode'.trans hinode, hkeeps.trans hkeeps', fun c hc ↦ ?_⟩
    obtain ⟨hdisk, hcache⟩ := hframe' c (hc.trans_le hlow).ne
    exact ⟨hdisk.trans (hframe c hc).1, hcache.trans (hframe c hc).2⟩
  | @write s' b hmoves hb c ih =>
    obtain ⟨hinode, hkeeps, hframe⟩ := ih
    have hlow := ((h.moves hmoves).sound.owned_range b (List.mem_append_left _ hb)).1
    refine ⟨hinode, hkeeps, fun a ha ↦ ⟨(hframe a ha).1, ?_⟩⟩
    exact (Function.update_of_ne (ha.trans_le hlow).ne ..).trans (hframe a ha).2

/-- The super block is marked when blocks have gone or come. -/
theorem Moves.marked (hmoves : Moves s t) (h : Kept isize fsize nobody s) :
    sFmod t.v.fp = 1 ∨ sFmod t.v.fp = sFmod s.v.fp ∧ t.owned = s.owned := by
  induction hmoves with
  | start => exact .inr ⟨rfl, rfl⟩
  | @alloc s' w r hmoves halloc ih =>
    have hkept := h.moves hmoves
    obtain ⟨stack, hlist, -⟩ := hkept.sound.accounts.blocks
    rcases List.eq_nil_or_concat stack with rfl | ⟨rest, b, rfl⟩
    · obtain ⟨fp, hempty, -, hfmod, -⟩ := alloc_of_empty hlist hkept.sound.list.le
      rw [hempty] at halloc
      obtain ⟨rfl, rfl⟩ := Prod.mk.inj halloc
      exact ih.imp hfmod.trans fun hsame ↦ ⟨hfmod.trans hsame.1, hsame.2⟩
    · rw [List.concat_eq_append] at hlist
      obtain ⟨fp, htop, -, hfmod, -⟩ := alloc_of_top hlist hkept.sound.pos hkept.sound.list.le
      rw [htop] at halloc
      obtain ⟨rfl, rfl⟩ := Prod.mk.inj halloc
      exact .inl hfmod
  | @free s' b w hmoves hb hfree ih =>
    have hkept := h.moves hmoves
    obtain ⟨hlow, hhigh⟩ := hkept.sound.owned_range b (List.mem_append_left nobody hb)
    obtain ⟨stack, hlist, hpartition⟩ := hkept.sound.accounts.blocks
    have hgood : ¬ badblock s'.v.fp b := by
      rw [badblock, hkept.sound.accounts.isize_eq, hkept.sound.accounts.fsize_eq]
      omega
    obtain ⟨-, -, hfmod, -⟩ :=
      free_push hlist hkept.sound.pos hkept.sound.list.le hgood
        ((hpartition b hlow hhigh).mp (List.mem_append_left nobody hb))
    rw [hfree] at hfmod
    exact .inl hfmod
  | write _ hb c ih => exact ih

end Steps

section Indirect

variable {isize fsize : ℤ} {nobody : List ℤ} {s : State} {v w : Volume} {r : Option ℤ} {nb : ℤ} {level bn i : ℕ}

/-- A way through the indirect blocks changes nothing when it reads. -/
theorem indirect_read (v : Volume) (nb : ℤ) (hnb : nb ≠ 0) (level bn : ℕ) :
    indirect .read bn level v nb =
      (v, if leaf v.view level nb bn = 0 then none else some (leaf v.view level nb bn)) := by
  induction level generalizing nb with
  | zero => exact congrArg (Prod.mk v) (if_neg hnb).symm
  | succ level ih =>
    have hleaf : leaf v.view (level + 1) nb bn =
        leaf v.view level (bap (v.view nb) (bn / NINDIR ^ level % NINDIR)) bn := IndexTree.find_succ hnb
    rw [indirect, hleaf]
    by_cases hnext : bap (v.view nb) (bn / NINDIR ^ level % NINDIR) = 0
    · rw [if_neg (not_not.mpr hnext), hnext]
      exact congrArg (Prod.mk v) (if_pos (IndexTree.find_null level bn)).symm
    · rw [if_pos hnext]
      exact ih _ hnext

/-- What a way through the indirect blocks does when it writes: blocks come from the free list, and their contents are
those that were missing. -/
structure Grown (isize fsize : ℤ) (nobody : List ℤ) (s : State) (level : ℕ) (nb nb' : ℤ) (bn : ℕ) (w : Volume)
    (r : Option ℤ) (new : List ℤ) : Prop where
  run : Moves s ⟨w, new ++ s.owned⟩
  nodup : new.Nodup
  apart : ∀ b ∈ new, b ∉ s.owned
  frame : ∀ c ∈ s.owned, c ∉ tree s.v.view level nb → w.view c = s.v.view c
  nodes : (tree w.view level nb').Perm (new ++ tree s.v.view level nb)
  contents : ∀ j, leafContents w.view level nb' j = leafContents s.v.view level nb j
  result : ∀ b, r = some b → leaf w.view level nb' bn = b ∧ b ≠ 0
  hole : r = none → leafContents s.v.view level nb bn = cleared
  full : r = none → ∀ b, isize ≤ b → b < fsize → b ∈ new ++ s.owned ∨ b ∈ nobody

/-- The trees below the other entries of an indirect block are as they were. -/
theorem up_contents {view view' : ℤ → Buffer} {next : ℤ} (hnb : nb ≠ 0) (hi : bap (view' nb) i = next)
    (hother : ∀ k, k ≠ i → bap (view' nb) k = bap (view nb) k)
    (hbelow : ∀ k < NINDIR, k ≠ i → ∀ c ∈ tree view level (bap (view nb) k), view' c = view c)
    (hself : ∀ j, leafContents view' level next j = leafContents view level (bap (view nb) i) j) (j : ℕ) :
    leafContents view' (level + 1) nb j = leafContents view (level + 1) nb j := by
  have hup (u : ℤ → Buffer) : leafContents u (level + 1) nb j =
      leafContents u level (bap (u nb) (j / NINDIR ^ level % NINDIR)) j := by
    rw [leafContents, leafContents, leaf, leaf, IndexTree.find_succ hnb]
  rw [hup, hup]
  by_cases hj : j / NINDIR ^ level % NINDIR = i
  · rw [hj, hi]
    exact hself j
  · rw [hother _ hj]
    exact leafContents_congr (hbelow _ (Nat.mod_lt _ (by decide)) hj) j

theorem up_nodes {view view' : ℤ → Buffer} {next : ℤ} {new : List ℤ} (hnb : nb ≠ 0) (hlt : i < NINDIR)
    (hi : bap (view' nb) i = next) (hother : ∀ k, k ≠ i → bap (view' nb) k = bap (view nb) k)
    (hbelow : ∀ k < NINDIR, k ≠ i → ∀ c ∈ tree view level (bap (view nb) k), view' c = view c)
    (hself : (tree view' level next).Perm (new ++ tree view level (bap (view nb) i))) :
    (tree view' (level + 1) nb).Perm (new ++ tree view (level + 1) nb) := by
  refine IndexTree.nodes_perm_of_child hnb hlt ?_ fun k hk hki ↦ ?_
  · rw [hi]
    exact hself
  · rw [hother k hki]
    exact tree_congr (hbelow k hk hki)

theorem mem_tree_child (hnb : nb ≠ 0) {view : ℤ → Buffer} {k : ℕ} (hk : k < NINDIR) {c : ℤ}
    (hc : c ∈ tree view level (bap (view nb) k)) : c ∈ tree view (level + 1) nb :=
  IndexTree.mem_nodes_child hnb hk hc

theorem leaf_succ (hnb : nb ≠ 0) (view : ℤ → Buffer) (bn : ℕ) :
    leaf view (level + 1) nb bn = leaf view level (bap (view nb) (bn / NINDIR ^ level % NINDIR)) bn :=
  IndexTree.find_succ hnb

theorem leafContents_succ (hnb : nb ≠ 0) (view : ℤ → Buffer) (bn : ℕ) :
    leafContents view (level + 1) nb bn = leafContents view level (bap (view nb) (bn / NINDIR ^ level % NINDIR)) bn := by
  rw [leafContents, leafContents, leaf_succ hnb]

theorem leafContents_null (view : ℤ → Buffer) (level bn : ℕ) : leafContents view level 0 bn = cleared :=
  if_pos (IndexTree.find_null level bn)

/-- The entry is there already. -/
theorem Grown.up {next : ℤ} {new : List ℤ} (hnb : nb ≠ 0) (hnodup : (tree s.v.view (level + 1) nb).Nodup)
    (howned : ∀ c ∈ tree s.v.view (level + 1) nb, c ∈ s.owned)
    (hnext : bap (s.v.view nb) (bn / NINDIR ^ level % NINDIR) = next)
    (h : Grown isize fsize nobody s level next next bn w r new) :
    Grown isize fsize nobody s (level + 1) nb nb bn w r new := by
  have hlt : bn / NINDIR ^ level % NINDIR < NINDIR := Nat.mod_lt _ (by decide)
  obtain ⟨hself, -, hapart⟩ := IndexTree.nodup_succ hnb hnodup
  have hbelow (k : ℕ) (hk : k < NINDIR) (hki : k ≠ bn / NINDIR ^ level % NINDIR) (c : ℤ)
      (hc : c ∈ tree s.v.view level (bap (s.v.view nb) k)) : w.view c = s.v.view c := by
    refine h.frame c (howned c (mem_tree_child hnb hk hc)) fun hmem ↦ ?_
    rw [← hnext] at hmem
    exact hapart k hk _ hlt hki hc hmem
  have hsame : w.view nb = s.v.view nb := by
    refine h.frame nb (howned nb (IndexTree.mem_nodes_self hnb _)) ?_
    rw [← hnext]
    exact hself _ hlt
  have hi : bap (w.view nb) (bn / NINDIR ^ level % NINDIR) = next := by rw [hsame, hnext]
  refine ⟨h.run, h.nodup, h.apart, fun c hc hmem ↦ h.frame c hc fun hmem' ↦ ?_, ?_, ?_, fun b hb ↦ ?_, fun hr ↦ ?_, h.full⟩
  · rw [← hnext] at hmem'
    exact hmem (mem_tree_child hnb hlt hmem')
  · exact up_nodes hnb hlt hi (fun k _ ↦ by rw [hsame]) hbelow (hnext.symm ▸ h.nodes)
  · exact up_contents hnb hi (fun k _ ↦ by rw [hsame]) hbelow (hnext.symm ▸ h.contents)
  · rw [leaf_succ hnb, hi]
    exact h.result b hb
  · rw [leafContents_succ hnb, hnext]
    exact h.hole hr

/-- What comes below a block from the free list. -/
theorem Grown.fresh {b : ℤ} {owned : List ℤ} {new : List ℤ} (hb : b ≠ 0) (hcleared : v.view b = cleared)
    (h : Grown isize fsize nobody ⟨v, b :: owned⟩ level b b bn w r new) :
    (tree w.view level b).Perm (new ++ [b]) ∧ (∀ j, leafContents w.view level b j = cleared) ∧
      (∀ c ∈ owned, c ≠ b → w.view c = v.view c) ∧ (b ∉ owned → (new ++ [b]).Nodup) ∧ ∀ a ∈ new, a ≠ b ∧ a ∉ owned := by
  have htree : tree v.view level b = [b] := tree_of_cleared hb hcleared level
  refine ⟨?_, fun j ↦ (h.contents j).trans (leafContents_of_cleared hb hcleared level j), fun c hc hne ↦ ?_, fun _ ↦ ?_,
    fun a ha ↦ ?_⟩
  · have hnodes := h.nodes
    rw [htree] at hnodes
    exact hnodes
  · refine h.frame c (List.mem_cons_of_mem _ hc) ?_
    rw [htree, List.mem_singleton]
    exact hne
  · refine List.nodup_append'.mpr ⟨h.nodup, List.nodup_singleton b, List.disjoint_singleton.mpr fun hmem ↦ ?_⟩
    exact h.apart b hmem List.mem_cons_self
  · exact not_or.mp fun hor ↦ h.apart a ha (List.mem_cons.mpr hor)

theorem Moves.of_append {b : ℤ} {new owned : List ℤ} (h : Moves s ⟨w, new ++ b :: owned⟩) :
    Moves s ⟨w, (new ++ [b]) ++ owned⟩ := by
  rw [List.append_assoc, List.singleton_append]
  exact h

theorem mem_of_append {b c : ℤ} {new owned : List ℤ} (h : c ∈ new ++ b :: owned) : c ∈ (new ++ [b]) ++ owned := by
  rw [List.append_assoc, List.singleton_append]
  exact h

/-- The entry comes from the free list. -/
theorem Grown.attach {b : ℤ} {new : List ℤ} (hnb : nb ≠ 0)
    (hnodup : (tree s.v.view (level + 1) nb).Nodup) (howned : ∀ c ∈ tree s.v.view (level + 1) nb, c ∈ s.owned)
    (hnext : bap (s.v.view nb) (bn / NINDIR ^ level % NINDIR) = 0) (hgiven : Given s v b)
    (h : Grown isize fsize nobody
      ⟨bdwrite v nb (setLong (s.v.view nb) (4 * (bn / NINDIR ^ level % NINDIR)) b), b :: s.owned⟩ level b b bn w r new) :
    Grown isize fsize nobody s (level + 1) nb nb bn w r (new ++ [b]) := by
  have hlt : bn / NINDIR ^ level % NINDIR < NINDIR := Nat.mod_lt _ (by decide)
  obtain ⟨hself, -, -⟩ := IndexTree.nodup_succ hnb hnodup
  have hnbown : nb ∈ s.owned := howned nb (IndexTree.mem_nodes_self hnb _)
  have hne : b ≠ nb := fun heq ↦ hgiven.new (heq ▸ hnbown)
  have hcleared : (bdwrite v nb (setLong (s.v.view nb) (4 * (bn / NINDIR ^ level % NINDIR)) b)).view b = cleared :=
    (view_bdwrite_of_ne hne v _).trans hgiven.cleared
  obtain ⟨hnodes, hcontents, hframe, hnew, hapart⟩ := h.fresh hgiven.ne_zero hcleared
  have hold (c : ℤ) (hc : c ∈ s.owned) (hcnb : c ≠ nb) : w.view c = s.v.view c := by
    have hcb : c ≠ b := fun heq ↦ hgiven.new (heq ▸ hc)
    rw [hframe c hc hcb, view_bdwrite_of_ne hcnb, hgiven.frame c hcb]
  have hentry : w.view nb = setLong (s.v.view nb) (4 * (bn / NINDIR ^ level % NINDIR)) b := by
    rw [hframe nb hnbown hne.symm, view_bdwrite_self]
  have hi : bap (w.view nb) (bn / NINDIR ^ level % NINDIR) = b := by
    rw [hentry]
    exact bap_setLong hgiven.range
  have hother (k : ℕ) (hk : k ≠ bn / NINDIR ^ level % NINDIR) : bap (w.view nb) k = bap (s.v.view nb) k := by
    rw [hentry]
    exact bap_setLong_of_ne hk
  have hbelow (k : ℕ) (hk : k < NINDIR) (_ : k ≠ bn / NINDIR ^ level % NINDIR) (c : ℤ)
      (hc : c ∈ tree s.v.view level (bap (s.v.view nb) k)) : w.view c = s.v.view c := by
    refine hold c (howned c (mem_tree_child hnb hk hc)) ?_
    rintro rfl
    exact hself k hk hc
  have hwritten := hgiven.run.write (List.mem_cons_of_mem b hnbown)
    (setLong (s.v.view nb) (4 * (bn / NINDIR ^ level % NINDIR)) b)
  refine ⟨(hwritten.trans h.run).of_append, hnew hgiven.new, fun a ha ↦ ?_, fun c hc hmem ↦ ?_, ?_, ?_,
    fun a ha ↦ ?_, fun _ ↦ ?_, fun hr a hlow hhigh ↦ (h.full hr a hlow hhigh).imp_left mem_of_append⟩
  · rcases List.mem_append.mp ha with ha | ha
    · exact (hapart a ha).2
    · rw [List.mem_singleton.mp ha]
      exact hgiven.new
  · refine hold c hc ?_
    rintro rfl
    exact hmem (IndexTree.mem_nodes_self hnb _)
  · refine up_nodes hnb hlt hi hother hbelow ?_
    have hempty : tree s.v.view level 0 = [] := IndexTree.nodes_null level
    rw [hnext, hempty, List.append_nil]
    exact hnodes
  · refine up_contents hnb hi hother hbelow fun j ↦ ?_
    rw [hcontents j, hnext, leafContents_null]
  · rw [leaf_succ hnb, hi]
    exact h.result a ha
  · rw [leafContents_succ hnb, hnext]
    exact leafContents_null s.v.view level bn

/-- Nothing grows. -/
theorem Full.grown (h : Full isize fsize nobody s w) (hhole : leafContents s.v.view level nb bn = cleared) :
    Grown isize fsize nobody s level nb nb bn w none [] := by
  refine ⟨h.run, List.nodup_nil, fun b hb ↦ absurd hb List.not_mem_nil, fun c _ _ ↦ h.frame c, ?_, ?_,
    fun b hb ↦ absurd hb.symm (Option.some_ne_none b), fun _ ↦ hhole, fun _ ↦ h.full⟩
  · rw [tree_congr fun c _ ↦ h.frame c]
    exact .refl _
  · exact leafContents_congr fun c _ ↦ h.frame c

theorem indirect_of_next {rwflg : Rwflg} {next : ℤ} (hnext : bap (v.view nb) (bn / NINDIR ^ level % NINDIR) = next)
    (hne : next ≠ 0) : indirect rwflg bn (level + 1) v nb = indirect rwflg bn level v next := by
  cases rwflg <;> rw [indirect, hnext, if_pos hne]

theorem indirect_of_full (hnext : bap (v.view nb) (bn / NINDIR ^ level % NINDIR) = 0) (halloc : alloc v = (w, none)) :
    indirect .write bn (level + 1) v nb = (w, none) := by
  rw [indirect, if_neg (not_not.mpr hnext), halloc]

theorem indirect_of_given {b : ℤ} (hnext : bap (v.view nb) (bn / NINDIR ^ level % NINDIR) = 0)
    (halloc : alloc v = (w, some b)) :
    indirect .write bn (level + 1) v nb =
      indirect .write bn level (bdwrite w nb (setLong (v.view nb) (4 * (bn / NINDIR ^ level % NINDIR)) b)) b := by
  rw [indirect, if_neg (not_not.mpr hnext), halloc]

/-- By induction on the indirect blocks to come. -/
theorem indirect_write (h : Kept isize fsize nobody s) (hnb : nb ≠ 0) (hnodup : (tree s.v.view level nb).Nodup)
    (howned : ∀ c ∈ tree s.v.view level nb, c ∈ s.owned) (hrun : indirect .write bn level s.v nb = (w, r)) :
    ∃ new, Grown isize fsize nobody s level nb nb bn w r new := by
  induction level generalizing s nb with
  | zero =>
    obtain ⟨rfl, rfl⟩ := Prod.mk.inj hrun
    refine ⟨[], .start, List.nodup_nil, fun b hb ↦ absurd hb List.not_mem_nil, fun _ _ _ ↦ rfl, .refl _, fun _ ↦ rfl,
      fun b hb ↦ ?_, fun hr ↦ absurd hr (Option.some_ne_none nb), fun hr ↦ absurd hr (Option.some_ne_none nb)⟩
    obtain rfl := Option.some.inj hb
    exact ⟨rfl, hnb⟩
  | succ level ih =>
    obtain ⟨next, hnext⟩ : ∃ next, bap (s.v.view nb) (bn / NINDIR ^ level % NINDIR) = next := ⟨_, rfl⟩
    have hlt : bn / NINDIR ^ level % NINDIR < NINDIR := Nat.mod_lt _ (by decide)
    obtain ⟨-, hall, -⟩ := IndexTree.nodup_succ hnb hnodup
    by_cases hzero : next = 0
    · subst hzero
      have hnbown : nb ∈ s.owned := howned nb (IndexTree.mem_nodes_self hnb _)
      cases halloc : alloc s.v with
      | mk v o =>
        cases o with
        | none =>
          rw [indirect_of_full hnext halloc] at hrun
          obtain ⟨rfl, rfl⟩ := Prod.mk.inj hrun
          have hhole : leafContents s.v.view (level + 1) nb bn = cleared := by
            rw [leafContents_succ hnb, hnext]
            exact leafContents_null s.v.view level bn
          exact ⟨[], (h.full halloc).grown hhole⟩
        | some b =>
          rw [indirect_of_given hnext halloc] at hrun
          have hgiven := h.given halloc
          have hwritten := hgiven.run.write (List.mem_cons_of_mem b hnbown)
            (setLong (s.v.view nb) (4 * (bn / NINDIR ^ level % NINDIR)) b)
          have hne : b ≠ nb := fun heq ↦ hgiven.new (heq ▸ hnbown)
          have hcleared := (view_bdwrite_of_ne hne v
            (setLong (s.v.view nb) (4 * (bn / NINDIR ^ level % NINDIR)) b)).trans hgiven.cleared
          have htree := tree_of_cleared hgiven.ne_zero hcleared level
          obtain ⟨new, hgrown⟩ := ih (h.moves hwritten) hgiven.ne_zero (by rw [htree]; exact List.nodup_singleton b)
            (by rw [htree]; exact fun c hc ↦ List.mem_singleton.mp hc ▸ List.mem_cons_self) hrun
          exact ⟨new ++ [b], hgrown.attach hnb hnodup howned hnext hgiven⟩
    · rw [indirect_of_next hnext hzero] at hrun
      obtain ⟨new, hgrown⟩ := ih h hzero (hnext ▸ hall _ hlt)
        (fun c hc ↦ howned c (mem_tree_child hnb hlt (hnext.symm ▸ hc))) hrun
      exact ⟨new, hgrown.up hnb hnodup howned hnext⟩

end Indirect

section Blocks

variable {isize fsize : ℤ} {nobody : List ℤ} {s : State} {v w : Volume} {ip ip' : File} {view view' : ℤ → Buffer}
  {r : Option ℤ} {bn i sh rest : ℕ} {nb b : ℤ} {new : List ℤ}

/-- The blocks of a file, indirect ones included. -/
def fileTree (view : ℤ → Buffer) (ip : File) : List ℤ :=
  (List.range NADDR).flatMap fun i ↦ tree view (i - (NADDR - 4)) (ip.iAddr i)

def blockAt (view : ℤ → Buffer) (ip : File) (bn : ℕ) : ℤ :=
  match slot bn with
  | none => 0
  | some (i, sh, rest) => leaf view sh (ip.iAddr i) rest

/-- A block of a file. One that is missing, or beyond the largest file, has zeros. -/
def blockContents (view : ℤ → Buffer) (ip : File) (bn : ℕ) : Buffer :=
  if blockAt view ip bn = 0 then cleared else view (blockAt view ip bn)

theorem slot_eq (bn : ℕ) :
    slot bn =
      if bn < 10 then some (bn, 0, 0)
      else if bn < 138 then some (10, 1, bn - 10)
      else if bn < 16522 then some (11, 2, bn - 138)
      else if bn < 2113674 then some (12, 3, bn - 16522)
      else none := by
  have hdirect : NADDR - 3 = 10 := rfl
  have hone : NINDIR ^ 1 = 128 := rfl
  have htwo : NINDIR ^ (1 + 1) = 16384 := by norm_num [NINDIR]
  have hthree : NINDIR ^ (1 + 1 + 1) = 2097152 := by norm_num [NINDIR]
  unfold slot
  rw [levels, levels, levels, levels, hdirect, hone, htwo, hthree]
  by_cases h : bn < 10
  · rw [if_pos h, if_pos h]
  rw [if_neg h, if_neg h]
  by_cases h1 : bn < 138
  · rw [if_pos (by omega), if_pos h1, Option.map_some]
    rfl
  rw [if_neg (by omega), if_neg h1]
  by_cases h2 : bn < 16522
  · rw [if_pos (by omega), if_pos h2, Option.map_some, Nat.sub_sub]
    rfl
  rw [if_neg (by omega), if_neg h2]
  by_cases h3 : bn < 2113674
  · rw [if_pos (by omega), if_pos h3, Option.map_some, Nat.sub_sub, Nat.sub_sub]
    rfl
  rw [if_neg (by omega), if_neg h3, Option.map_none]

/-- The slot of a block determines it. -/
theorem slot_spec (h : slot bn = some (i, sh, rest)) :
    i < NADDR ∧ sh = i - (NADDR - 4) ∧ rest < NINDIR ^ sh ∧ ∀ bn', slot bn' = some (i, sh, rest) → bn' = bn := by
  have hback (bn' : ℕ) (h' : slot bn' = some (i, sh, rest)) :
      bn' < 10 ∧ i = bn' ∧ sh = 0 ∧ rest = 0 ∨ (10 ≤ bn' ∧ bn' < 138) ∧ i = 10 ∧ sh = 1 ∧ rest = bn' - 10 ∨
        (138 ≤ bn' ∧ bn' < 16522) ∧ i = 11 ∧ sh = 2 ∧ rest = bn' - 138 ∨
        (16522 ≤ bn' ∧ bn' < 2113674) ∧ i = 12 ∧ sh = 3 ∧ rest = bn' - 16522 := by
    rw [slot_eq] at h'
    split_ifs at h' <;> simp only [Option.some.injEq, Prod.mk.injEq] at h' <;> omega
  have hone : NINDIR ^ 1 = 128 := rfl
  have htwo : NINDIR ^ 2 = 16384 := by norm_num [NINDIR]
  have hthree : NINDIR ^ 3 = 2097152 := by norm_num [NINDIR]
  refine ⟨?_, ?_, ?_, fun bn' h' ↦ ?_⟩
  · have hcases := hback bn h
    rw [NADDR]
    omega
  · have hcases := hback bn h
    rw [NADDR]
    omega
  · rcases hback bn h with ⟨-, -, hsh, hrest⟩ | ⟨hlt, -, hsh, hrest⟩ | ⟨hlt, -, hsh, hrest⟩ | ⟨hlt, -, hsh, hrest⟩
    · rw [hsh, hrest, pow_zero]
      exact Nat.one_pos
    · rw [hsh, hone]
      omega
    · rw [hsh, htwo]
      omega
    · rw [hsh, hthree]
      omega
  · have hcases := hback bn h
    have hcases' := hback bn' h'
    omega

theorem mem_fileTree (hi : i < NADDR) {c : ℤ} (hc : c ∈ tree view (i - (NADDR - 4)) (ip.iAddr i)) : c ∈ fileTree view ip :=
  List.mem_flatMap.mpr ⟨i, List.mem_range.mpr hi, hc⟩

theorem blockAt_eq (h : slot bn = some (i, sh, rest)) : blockAt view ip bn = leaf view sh (ip.iAddr i) rest := by
  rw [blockAt, h]

theorem blockContents_eq (h : slot bn = some (i, sh, rest)) :
    blockContents view ip bn = leafContents view sh (ip.iAddr i) rest := by
  rw [blockContents, blockAt_eq h]
  rfl

theorem blockContents_of_large (h : slot bn = none) : blockContents view ip bn = cleared := by
  refine if_pos ?_
  rw [blockAt, h]

/-- What `bmap` does to a file when it writes: the file grows by blocks of the free list, and reads as before. -/
structure Placed (isize fsize : ℤ) (nobody : List ℤ) (s : State) (ip : File) (bn : ℕ) (w : Volume) (ip' : File)
    (r : Option ℤ) (new : List ℤ) : Prop where
  run : Moves s ⟨w, new ++ s.owned⟩
  nodup : new.Nodup
  apart : ∀ b ∈ new, b ∉ s.owned
  frame : ∀ c ∈ s.owned, c ∉ fileTree s.v.view ip → w.view c = s.v.view c
  nodes : (fileTree w.view ip').Perm (new ++ fileTree s.v.view ip)
  contents : ∀ bn, blockContents w.view ip' bn = blockContents s.v.view ip bn
  size : ip'.iSize = ip.iSize
  beyond : ∀ k, NADDR ≤ k → ip'.iAddr k = ip.iAddr k
  result : ∀ b, r = some b → blockAt w.view ip' bn = b ∧ b ≠ 0
  hole : r = none → blockContents s.v.view ip bn = cleared
  full : r = none → ∀ b, isize ≤ b → b < fsize → b ∈ new ++ s.owned ∨ b ∈ nobody

/-- An address that was missing. -/
theorem Grown.root {level : ℕ} (hgiven : Given s v b)
    (h : Grown isize fsize nobody ⟨v, b :: s.owned⟩ level b b bn w r new) :
    Grown isize fsize nobody s level 0 b bn w r (new ++ [b]) := by
  obtain ⟨hnodes, hcontents, hframe, hnew, hapart⟩ := h.fresh hgiven.ne_zero hgiven.cleared
  refine ⟨(hgiven.run.trans h.run).of_append, hnew hgiven.new, fun a ha ↦ ?_, fun c hc _ ↦ ?_, ?_, fun j ↦ ?_, h.result,
    fun _ ↦ leafContents_null s.v.view level bn, fun hr a hlow hhigh ↦ (h.full hr a hlow hhigh).imp_left mem_of_append⟩
  · rcases List.mem_append.mp ha with ha | ha
    · exact (hapart a ha).2
    · rw [List.mem_singleton.mp ha]
      exact hgiven.new
  · have hcb : c ≠ b := fun heq ↦ hgiven.new (heq ▸ hc)
    rw [hframe c hc hcb, hgiven.frame c hcb]
  · have hempty : tree s.v.view level 0 = [] := IndexTree.nodes_null level
    rw [hempty, List.append_nil]
    exact hnodes
  · rw [hcontents j, leafContents_null]

/-- One address of the file grows. -/
theorem Grown.placed (hslot : slot bn = some (i, sh, rest)) (hnodup : (fileTree s.v.view ip).Nodup)
    (howned : ∀ c ∈ fileTree s.v.view ip, c ∈ s.owned) (hi : ip'.iAddr i = nb)
    (hother : ∀ k, k ≠ i → ip'.iAddr k = ip.iAddr k) (hsize : ip'.iSize = ip.iSize)
    (h : Grown isize fsize nobody s sh (ip.iAddr i) nb rest w r new) :
    Placed isize fsize nobody s ip bn w ip' r new := by
  obtain ⟨hlt, hsh, -, -⟩ := slot_spec hslot
  obtain ⟨hall, hapart⟩ := IndexTree.nodup_flatMap_range hnodup
  have hbelow (k : ℕ) (hk : k < NADDR) (hki : k ≠ i) (c : ℤ) (hc : c ∈ tree s.v.view (k - (NADDR - 4)) (ip.iAddr k)) :
      w.view c = s.v.view c := by
    refine h.frame c (howned c (mem_fileTree hk hc)) fun hmem ↦ ?_
    rw [hsh] at hmem
    exact hapart k hk i hlt hki hc hmem
  refine ⟨h.run, h.nodup, h.apart, fun c hc hmem ↦ h.frame c hc fun hmem' ↦ ?_, ?_, fun bn' ↦ ?_, hsize,
    fun k hk ↦ hother k (hlt.trans_le hk).ne', fun b hb ↦ ?_, fun hr ↦ ?_, h.full⟩
  · rw [hsh] at hmem'
    exact hmem (mem_fileTree hlt hmem')
  · refine IndexTree.perm_flatMap_of_ne List.nodup_range (List.mem_range.mpr hlt) ?_ fun k hk hki ↦ ?_
    · rw [hi, ← hsh]
      exact h.nodes
    · rw [hother k hki]
      exact tree_congr (hbelow k (List.mem_range.mp hk) hki)
  · cases hslot' : slot bn' with
    | none => rw [blockContents_of_large hslot', blockContents_of_large hslot']
    | some t =>
      obtain ⟨k, sh', rest'⟩ := t
      obtain ⟨hk, hsh', -, -⟩ := slot_spec hslot'
      rw [blockContents_eq hslot', blockContents_eq hslot']
      by_cases hki : k = i
      · rw [hki] at hsh' ⊢
        rw [hi, hsh', ← hsh]
        exact h.contents rest'
      · rw [hother k hki]
        rw [hsh']
        exact leafContents_congr (hbelow k hk hki) rest'
  · rw [blockAt_eq hslot, hi]
    exact h.result b hb
  · rw [blockContents_eq hslot]
    exact h.hole hr

theorem bmap_of_large {rwflg : Rwflg} (h : slot bn = none) : bmap rwflg v ip bn = (v, ip, .error) := by
  rw [bmap, h]

/-- `bmap` finds a block without a change when it reads. -/
theorem bmap_read (h : slot bn = some (i, sh, rest)) (v : Volume) (ip : File) :
    bmap .read v ip bn = (v, ip, if blockAt v.view ip bn = 0 then .none else .block (blockAt v.view ip bn)) := by
  rw [blockAt_eq h, bmap, h]
  dsimp only
  by_cases hzero : ip.iAddr i = 0
  · have hnone : address .read v ip i = (v, ip, none) := if_neg (not_not.mpr hzero)
    have hleaf : leaf v.view sh (ip.iAddr i) rest = 0 := by
      rw [hzero]
      exact IndexTree.find_null sh rest
    rw [hnone, hleaf, if_pos rfl]
  · have hsome : address .read v ip i = (v, ip, some (ip.iAddr i)) := if_pos hzero
    rw [hsome]
    dsimp only
    rw [indirect_read v _ hzero]
    by_cases hleaf : leaf v.view sh (ip.iAddr i) rest = 0
    · rw [if_pos hleaf, if_pos hleaf]
      rfl
    · rw [if_neg hleaf, if_neg hleaf]
      rfl

theorem bmap_of_present {rwflg : Rwflg} (hslot : slot bn = some (i, sh, rest)) (hne : ip.iAddr i ≠ 0) :
    bmap rwflg v ip bn = mapped ip (indirect rwflg rest sh v (ip.iAddr i)) := by
  have hsome : address rwflg v ip i = (v, ip, some (ip.iAddr i)) := if_pos hne
  rw [bmap, hslot]
  dsimp only
  rw [hsome]

theorem bmap_of_full (hslot : slot bn = some (i, sh, rest)) (hzero : ip.iAddr i = 0) (halloc : alloc v = (w, none)) :
    bmap .write v ip bn = (w, ip, .none) := by
  rw [bmap, hslot]
  dsimp only
  rw [address, if_neg (not_not.mpr hzero), halloc]

theorem bmap_of_given (hslot : slot bn = some (i, sh, rest)) (hzero : ip.iAddr i = 0) (halloc : alloc v = (w, some b)) :
    bmap .write v ip bn =
      mapped { ip with iAddr := Function.update ip.iAddr i b } (indirect .write rest sh w b) := by
  rw [bmap, hslot]
  dsimp only
  rw [address, if_neg (not_not.mpr hzero), halloc]

theorem bmap_write (h : Kept isize fsize nobody s) (hslot : slot bn = some (i, sh, rest))
    (hnodup : (fileTree s.v.view ip).Nodup) (howned : ∀ c ∈ fileTree s.v.view ip, c ∈ s.owned) :
    ∃ w ip' r new, bmap .write s.v ip bn = mapped ip' (w, r) ∧ Placed isize fsize nobody s ip bn w ip' r new := by
  obtain ⟨hlt, hsh, -, -⟩ := slot_spec hslot
  obtain ⟨hall, -⟩ := IndexTree.nodup_flatMap_range hnodup
  by_cases hzero : ip.iAddr i = 0
  · cases halloc : alloc s.v with
    | mk v o =>
      cases o with
      | none =>
        have hhole : leafContents s.v.view sh (ip.iAddr i) rest = cleared := by
          rw [hzero]
          exact leafContents_null s.v.view sh rest
        have hgrown := (h.full halloc).grown hhole
        exact ⟨v, ip, none, [], bmap_of_full hslot hzero halloc,
          hgrown.placed hslot hnodup howned rfl (fun _ _ ↦ rfl) rfl⟩
      | some b =>
        have hgiven := h.given halloc
        have htree := tree_of_cleared hgiven.ne_zero hgiven.cleared sh
        cases hrun : indirect .write rest sh v b with
        | mk w r =>
          have hkept : Kept isize fsize nobody ⟨v, b :: s.owned⟩ := h.moves hgiven.run
          obtain ⟨new, hgrown⟩ := indirect_write hkept hgiven.ne_zero (by rw [htree]; exact List.nodup_singleton b)
            (by rw [htree]; exact fun c hc ↦ List.mem_singleton.mp hc ▸ List.mem_cons_self) hrun
          have hroot := hgrown.root hgiven
          rw [← hzero] at hroot
          refine ⟨w, { ip with iAddr := Function.update ip.iAddr i b }, r, new ++ [b], ?_,
            hroot.placed hslot hnodup howned (Function.update_self ..) (fun k hk ↦ Function.update_of_ne hk ..) rfl⟩
          rw [bmap_of_given hslot hzero halloc, hrun]
  · cases hrun : indirect .write rest sh s.v (ip.iAddr i) with
    | mk w r =>
      obtain ⟨new, hgrown⟩ := indirect_write h hzero (hsh ▸ hall i hlt)
        (fun c hc ↦ howned c (mem_fileTree hlt (hsh ▸ hc))) hrun
      refine ⟨w, ip, r, new, ?_, hgrown.placed hslot hnodup howned rfl (fun _ _ ↦ rfl) rfl⟩
      rw [bmap_of_present hslot hzero, hrun]

/-- What is written into a block of a file shows there only. -/
theorem written_contents (hnodup : (fileTree view ip).Nodup) (hb : blockAt view ip bn = b) (hne : b ≠ 0)
    (hview : ∀ c, c ≠ b → view' c = view c) :
    fileTree view' ip = fileTree view ip ∧
      ∀ bn', blockContents view' ip bn' = if bn' = bn then view' b else blockContents view ip bn' := by
  cases hslot : slot bn with
  | none =>
    rw [blockAt, hslot] at hb
    exact absurd hb.symm hne
  | some t =>
    obtain ⟨i, sh, rest⟩ := t
    obtain ⟨hlt, hsh, hrest, hinj⟩ := slot_spec hslot
    obtain ⟨hall, hapart⟩ := IndexTree.nodup_flatMap_range hnodup
    rw [blockAt_eq hslot] at hb
    subst hb
    have hmem : leaf view sh (ip.iAddr i) rest ∈ tree view (i - (NADDR - 4)) (ip.iAddr i) := hsh ▸ leaf_mem hne
    have hother (k : ℕ) (hk : k < NADDR) (hki : k ≠ i) (c : ℤ) (hc : c ∈ tree view (k - (NADDR - 4)) (ip.iAddr k)) :
        c ≠ leaf view sh (ip.iAddr i) rest := by
      rintro rfl
      exact hapart k hk i hlt hki hc hmem
    have hself := @IndexTree.leaf_congr _ _ _ NINDIR (fun c k ↦ bap (view c) k) (fun c k ↦ bap (view' c) k) _ _ _ (by decide)
      (hsh ▸ hall i hlt) hne fun c hc k ↦ by rw [hview c hc]
    refine ⟨List.flatMap_congr fun k hk ↦ ?_, fun bn' ↦ ?_⟩
    · by_cases hki : k = i
      · rw [hki, ← hsh]
        exact hself.1
      · exact tree_congr fun c hc ↦ hview c (hother k (List.mem_range.mp hk) hki c hc)
    · by_cases hbn : bn' = bn
      · rw [if_pos hbn, hbn, blockContents_eq hslot, leafContents]
        have hsame : leaf view' sh (ip.iAddr i) rest = leaf view sh (ip.iAddr i) rest := hself.2 rest
        rw [hsame, if_neg hne]
      · rw [if_neg hbn]
        cases hslot' : slot bn' with
        | none => rw [blockContents_of_large hslot', blockContents_of_large hslot']
        | some t =>
          obtain ⟨k, sh', rest'⟩ := t
          obtain ⟨hk, hsh', hrest', -⟩ := slot_spec hslot'
          rw [blockContents_eq hslot', blockContents_eq hslot']
          by_cases hki : k = i
          · rw [hki, ← hsh] at hsh'
            rw [hki, hsh'] at hslot'
            rw [hki, hsh', leafContents, leafContents]
            have hsame : leaf view' sh (ip.iAddr i) rest' = leaf view sh (ip.iAddr i) rest' := hself.2 rest'
            rw [hsame]
            split
            · rfl
            · rename_i hzero
              refine hview _ fun heq ↦ hbn ?_
              have hindex := IndexTree.find_inj (by decide) (hsh ▸ hall i hlt) (hsh' ▸ hrest') hrest hzero heq
              exact hinj bn' (hindex ▸ hslot')
          · rw [hsh']
            exact leafContents_congr (fun c hc ↦ hview c (hother k hk hki c hc)) rest'

/-- A file grows by blocks of the free list, and no other file changes. -/
structure Extends (s : State) (ip : File) (t : State) (ip' : File) : Prop where
  run : Moves s t
  grows : ∃ new : List ℤ, t.owned = new ++ s.owned ∧ new.Nodup ∧ (∀ b ∈ new, b ∉ s.owned) ∧
    (fileTree t.v.view ip').Perm (new ++ fileTree s.v.view ip)
  frame : ∀ c ∈ s.owned, c ∉ fileTree s.v.view ip → t.v.view c = s.v.view c
  beyond : ∀ k, NADDR ≤ k → ip'.iAddr k = ip.iAddr k

variable {t u : State} {ip'' : File}

theorem Extends.refl (s : State) (ip : File) : Extends s ip s ip :=
  ⟨.start, ⟨[], rfl, List.nodup_nil, fun _ hb ↦ absurd hb List.not_mem_nil, .refl _⟩, fun _ _ _ ↦ rfl, fun _ _ ↦ rfl⟩

theorem Extends.trans (h : Extends s ip t ip') (h' : Extends t ip' u ip'') : Extends s ip u ip'' := by
  obtain ⟨new, howned, hnodup, hapart, hnodes⟩ := h.grows
  obtain ⟨new', howned', hnodup', hapart', hnodes'⟩ := h'.grows
  refine ⟨h.run.trans h'.run, ⟨new' ++ new, ?_, ?_, ?_, ?_⟩, fun c hc hmem ↦ ?_,
    fun k hk ↦ (h'.beyond k hk).trans (h.beyond k hk)⟩
  · rw [howned', howned, List.append_assoc]
  · refine List.nodup_append'.mpr ⟨hnodup', hnodup, fun b hb hb' ↦ hapart' b hb ?_⟩
    rw [howned]
    exact List.mem_append_left _ hb'
  · intro b hb
    rcases List.mem_append.mp hb with hb | hb
    · intro hold
      refine hapart' b hb ?_
      rw [howned]
      exact List.mem_append_right _ hold
    · exact hapart b hb
  · rw [List.append_assoc]
    exact hnodes'.trans (hnodes.append_left new')
  · rw [h'.frame c (howned ▸ List.mem_append_right _ hc) fun hmem' ↦ ?_]
    · exact h.frame c hc hmem
    · rcases List.mem_append.mp (hnodes.subset hmem') with hnew | hold
      · exact hapart c hnew hc
      · exact hmem hold

/-- The file's blocks stay distinct and owned. -/
theorem Extends.own (h : Extends s ip t ip') (hnodup : (fileTree s.v.view ip).Nodup)
    (howned : ∀ c ∈ fileTree s.v.view ip, c ∈ s.owned) :
    (fileTree t.v.view ip').Nodup ∧ ∀ c ∈ fileTree t.v.view ip', c ∈ t.owned := by
  obtain ⟨new, heq, hnew, hapart, hnodes⟩ := h.grows
  constructor
  · rw [hnodes.nodup_iff]
    exact List.nodup_append'.mpr ⟨hnew, hnodup, fun b hb hb' ↦ hapart b hb (howned b hb')⟩
  · intro c hc
    rw [heq]
    rcases List.mem_append.mp (hnodes.subset hc) with hc | hc
    · exact List.mem_append_left _ hc
    · exact List.mem_append_right _ (howned c hc)

theorem Placed.extends (h : Placed isize fsize nobody s ip bn w ip' r new) : Extends s ip ⟨w, new ++ s.owned⟩ ip' :=
  ⟨h.run, ⟨new, rfl, h.nodup, h.apart, h.nodes⟩, h.frame, h.beyond⟩

end Blocks

end S8000.Filsys
