import S8000.Filsys.Dinode
import Mathlib.Data.Int.Interval

namespace S8000.Filsys

open Foundation Foundation.Bytes Foundation.Buffer

/-- The mounted file system: its super block in core, the disk, the buffers that are not written yet, and the inodes
in core. -/
structure Volume where
  fp : Superblock
  disk : ℤ → Buffer
  cache : ℤ → Option Buffer
  inode : List Inode

section Code

/-- The contents of a block. -/
def Volume.view (v : Volume) (bno : ℤ) : Buffer := (v.cache bno).getD (v.disk bno)

/-- The consistency check of `getfs`. -/
def getfs (fp : Superblock) : Superblock :=
  if NICFREE < sNfree fp ∨ NICINOD < sNinode fp then setNinode (setNfree fp 0) 0 else fp

def badblock (fp : Superblock) (bno : ℤ) : Prop := bno < sIsize fp ∨ sFsize fp ≤ bno

instance (fp : Superblock) (bno : ℤ) : Decidable (badblock fp bno) := inferInstanceAs (Decidable (_ ∨ _))

theorem toNat_sNfree_pred {fp : Superblock} (h : 0 < sNfree fp) (h' : sNfree fp ≤ NICFREE) :
    (sNfree (setNfree fp (sNfree fp - 1))).toNat < (sNfree fp).toNat := by
  rw [NICFREE] at h'
  have hset : sNfree (setNfree fp (sNfree fp - 1)) = sNfree fp - 1 := short_setShort (by omega)
  rw [hset]
  omega

/-- The loop that takes a block number from the list in the super block. -/
def pick (fp : Superblock) : Superblock × Option ℤ :=
  if _h : sNfree fp ≤ 0 then (fp, none)
  else if _h' : NICFREE < sNfree fp then (fp, none)
  else
    let next := setNfree fp (sNfree fp - 1)
    let bno := sFree next (sNfree next).toNat
    if bno = 0 then (next, none) else if badblock next bno then pick next else (next, some bno)
termination_by (sNfree fp).toNat
decreasing_by exact toNat_sNfree_pred (not_le.mp _h) (not_lt.mp _h')

def nospace (fp : Superblock) : Superblock := setTfree (setNfree fp 0) 0

/-- `df_nfree` and `df_free` to `s_nfree` and `s_free`. -/
def loadFree (fp : Superblock) (b : Buffer) : Superblock := put fp 6 (b.get 0 202)

/-- `s_nfree` and `s_free` to `df_nfree` and `df_free`. -/
def storeFree (fp : Superblock) (b : Buffer) : Buffer := put b 0 (fp.get 6 202)

/-- The block is cleared in its buffer; `none` is no space. -/
def alloc (v : Volume) : Volume × Option ℤ :=
  match pick (getfs v.fp) with
  | (fp, none) => ({ v with fp := nospace fp }, none)
  | (fp, some bno) =>
    let loaded := if sNfree fp ≤ 0 then loadFree fp (v.view bno) else fp
    if sNfree loaded ≤ 0 then ({ v with fp := nospace loaded }, none)
    else
      let counted := if sTfree loaded ≠ 0 then setTfree loaded (sTfree loaded - 1) else loaded
      ({ v with fp := setFmod counted 1, cache := Function.update v.cache bno (some fun _ ↦ 0) }, some bno)

/-- A full list moves to the block that is freed. -/
def spill (v : Volume) (bno : ℤ) : Volume :=
  if NICFREE ≤ sNfree v.fp then
    { v with
      fp := setNfree v.fp 0
      disk := Function.update v.disk bno (storeFree v.fp (v.view bno))
      cache := Function.update v.cache bno none }
  else v

def free (v : Volume) (bno : ℤ) : Volume :=
  let fp := setFmod (getfs v.fp) 1
  if badblock fp bno then { v with fp }
  else
    let started := if sNfree fp ≤ 0 then setFree (setNfree fp 1) 0 0 else fp
    let spilled := spill { v with fp := started } bno
    let pushed := setNfree (setFree spilled.fp (sNfree spilled.fp).toNat bno) (sNfree spilled.fp + 1)
    { spilled with fp := setFmod (setTfree pushed (sTfree pushed + 1)) 1 }

end Code

section Chain

/-- The numbers in a list denote a stack of blocks: zero ends it, the first number of any other list is a block that
holds the list below. -/
inductive Chain (clean : ℤ → Prop) (disk : ℤ → Buffer) : List ℤ → List ℤ → Prop
  | nil : Chain clean disk [] []
  | last (l : List ℤ) : Chain clean disk (0 :: l) l
  | link {b : ℤ} {l rest : List ℤ} (hb : b ≠ 0) (hclean : clean b) (hcount : short (disk b) 0 = NICFREE)
      (h : Chain clean disk (entries (disk b) 0) rest) : Chain clean disk (b :: l) (rest ++ b :: l)

variable {clean clean' : ℤ → Prop} {disk disk' : ℤ → Buffer} {l stack : List ℤ} {b : ℤ}

/-- Blocks outside the stack are no matter. -/
theorem Chain.congr (h : Chain clean disk l stack) (hdisk : ∀ b ∈ stack, clean b → disk' b = disk b)
    (hclean : ∀ b ∈ stack, clean b → clean' b) : Chain clean' disk' l stack := by
  induction h with
  | nil => exact .nil
  | last l => exact .last l
  | @link b l rest hb hc hcount h ih =>
    have hmem : b ∈ rest ++ b :: l := List.mem_append_right _ List.mem_cons_self
    have hsame := hdisk b hmem hc
    refine .link hb (hclean b hmem hc) (by rw [hsame]; exact hcount) ?_
    rw [hsame]
    exact ih (fun c hmem ↦ hdisk c (List.mem_append_left _ hmem)) fun c hmem ↦ hclean c (List.mem_append_left _ hmem)

/-- A number above another one is the top of the stack. -/
theorem Chain.pop (h : Chain clean disk (l ++ [b]) stack) (hl : l ≠ []) :
    ∃ rest, stack = rest ++ [b] ∧ Chain clean disk l rest := by
  obtain ⟨a, l, rfl⟩ := List.exists_cons_of_ne_nil hl
  rw [List.cons_append] at h
  cases h with
  | last => exact ⟨l, rfl, .last l⟩
  | @link _ _ rest ha hc hcount h =>
    exact ⟨rest ++ a :: l, by rw [List.append_assoc, List.cons_append], .link ha hc hcount h⟩

/-- A number put above others. -/
theorem Chain.push (h : Chain clean disk l stack) (hl : l ≠ []) (b : ℤ) : Chain clean disk (l ++ [b]) (stack ++ [b]) := by
  cases h with
  | nil => exact absurd rfl hl
  | last => exact .last _
  | @link a l rest ha hc hcount h =>
    rw [List.append_assoc, List.cons_append]
    exact .link ha hc hcount h

theorem Chain.of_nil (h : Chain clean disk [] stack) : stack = [] := by
  cases h
  rfl

/-- A list denotes one stack. -/
theorem Chain.unique {stack' : List ℤ} (h : Chain clean disk l stack) (h' : Chain clean' disk l stack') :
    stack = stack' := by
  induction h generalizing stack' with
  | nil => exact h'.of_nil.symm
  | last l =>
    cases h' with
    | last => rfl
    | link hb => exact absurd rfl hb
  | @link b l rest hb hc hcount h ih =>
    cases h' with
    | last => exact absurd rfl hb
    | @link _ _ rest' hb' hc' hcount' h' => rw [ih h']

/-- The number at the bottom of a list. -/
theorem Chain.bottom (h : Chain clean disk [b] stack) :
    b = 0 ∧ stack = [] ∨ b ≠ 0 ∧ clean b ∧ short (disk b) 0 = NICFREE ∧
      ∃ rest, stack = rest ++ [b] ∧ Chain clean disk (entries (disk b) 0) rest := by
  cases h with
  | last => exact .inl ⟨rfl, rfl⟩
  | @link _ _ rest hb hc hcount h => exact .inr ⟨hb, hc, hcount, rest, rfl, h⟩

end Chain

section Stack

/-- The free list of a super block denotes a stack of distinct blocks, and its total counts them. -/
structure FreeList (clean : ℤ → Prop) (disk : ℤ → Buffer) (fp : Superblock) (stack : List ℤ) : Prop where
  nonneg : 0 ≤ sNfree fp
  le : sNfree fp ≤ NICFREE
  chain : Chain clean disk (entries fp 6) stack
  range : ∀ b ∈ stack, ¬ badblock fp b
  nodup : stack.Nodup
  total : sTfree fp = stack.length

def Volume.Clean (v : Volume) (bno : ℤ) : Prop := v.cache bno = none

theorem length_le_of_range {l : List ℤ} {lo hi : ℤ} (hnodup : l.Nodup) (h : ∀ b ∈ l, lo ≤ b ∧ b < hi) (hle : lo ≤ hi) :
    (l.length : ℤ) ≤ hi - lo := by
  have hsub : l.toFinset ⊆ Finset.Ico lo hi := by
    intro b hb
    exact Finset.mem_Ico.mpr (h b (List.mem_toFinset.mp hb))
  have hcard := Finset.card_le_card hsub
  rw [List.toFinset_card_of_nodup hnodup, Int.card_Ico] at hcard
  omega

end Stack

end S8000.Filsys
