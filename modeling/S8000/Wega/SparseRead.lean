import S8000.Foundation.Chunks
import S8000.Foundation.Traversal
import S8000.Wega.BlockMap
import Mathlib.Data.List.GetD
import Mathlib.Data.List.Induction

namespace S8000.Wega

open Foundation Foundation.Bytes Foundation.Chunks

section Tool

/-- The blocks that hold the bytes of a file. -/
def Inode.count (ip : Inode) : ℕ := (ip.size + bsize - 1) / bsize

/-- `FS.blocks`. -/
def FS.blocks (fs : FS) (ip : Inode) : Events :=
  if ip.count < ndirect then ((ip.addr.take ndirect).take ip.count).map some
  else
    (ip.addr.take ndirect).map some ++ consume (ip.count - ndirect)
      (((ip.addr.drop ndirect).zipIdx 1).flatMap fun p ↦ fs.indirect p.2 p.1)

/-- `self.block(number) if number else bytes(BSIZE)`. -/
def FS.chunk (fs : FS) (number : ℕ) : Option (List Byte) :=
  if number = 0 then some (List.replicate bsize 0) else fs.block number

/-- One element of the join. -/
def FS.fetch (fs : FS) (event : Option ℕ) : Option (List Byte) := event.bind fs.chunk

/-- `FS.read`. -/
def FS.read (fs : FS) (ip : Inode) : Option (List Byte) :=
  ((fs.blocks ip).mapM fs.fetch).map fun chunks ↦ chunks.flatten.take ip.size

end Tool

/-- The tool returns exactly the bytes that the kernel finds. -/
def ReadsAsKernel (fs : FS) (ip : Inode) : Prop :=
  ∃ data, fs.read ip = some data ∧ data.length = ip.size ∧
    ∀ k < ip.size, kernelByte fs ip k = data[k]?

section Tree

/-- What stands at one place of a tree of indirect blocks. -/
inductive Address where
  | zero
  | unreadable
  | word (n : ℕ)
deriving DecidableEq

/-- The address at an index below some levels of indirect blocks that `rd` reads. -/
def walk (rd : ℕ → Option (List Byte)) : ℕ → ℕ → ℕ → Address
  | 0, number, _ => if number = 0 then .zero else .word number
  | l + 1, number, index =>
    if number = 0 then .zero
    else
      match rd number with
      | none => .unreadable
      | some raw => walk rd l ((words raw).getD (index / nindir ^ l) 0) (index % nindir ^ l)

def leaves (rd : ℕ → Option (List Byte)) (l number : ℕ) : List Address :=
  (List.range (nindir ^ l)).map (walk rd l number)

def Address.event : Address → Option ℕ
  | word n => some n
  | _ => none

variable {fs : FS} {rd : ℕ → Option (List Byte)}

theorem walk_zero (l index : ℕ) : walk rd l 0 index = .zero := by
  cases l <;> simp [walk]

theorem filter_leaves_zero (l : ℕ) : (leaves rd l 0).filter (· ≠ .zero) = [] := by
  rw [List.filter_eq_nil_iff]
  intro a ha
  obtain ⟨i, -, rfl⟩ := List.mem_map.mp ha
  simp [walk_zero]

theorem leaves_unreadable {l number : ℕ} (h0 : number ≠ 0) (h : rd number = none) :
    leaves rd (l + 1) number = List.replicate (nindir ^ (l + 1)) .unreadable := by
  have hwalk : walk rd (l + 1) number = fun _ ↦ Address.unreadable := by
    funext i
    rw [walk, if_neg h0, h]
  rw [leaves, hwalk, List.map_const', List.length_range]

theorem nindir_pow_pos (l : ℕ) : 0 < nindir ^ l := Nat.pow_pos (by decide)

/-- The leaves below an indirect block are those below its words. -/
theorem leaves_succ {l number : ℕ} {raw : List Byte} (h0 : number ≠ 0)
    (h : rd number = some raw) :
    leaves rd (l + 1) number = (words raw).flatMap (leaves rd l) := by
  have hword : ∀ i < nindir, (words raw).getD i 0 = long ((raw.drop (4 * i)).take 4) := by
    intro i hi
    rw [words, List.getD_eq_getElem?_getD, List.getElem?_map, List.getElem?_range hi]
    rfl
  have hpow : nindir ^ (l + 1) = nindir * nindir ^ l := by rw [Nat.pow_succ, Nat.mul_comm]
  rw [leaves, hpow, range_mul, List.map_flatMap, words, List.flatMap_map]
  apply List.flatMap_congr
  intro i hi
  rw [List.map_map, leaves]
  apply List.map_congr_left
  intro j hj
  have hj' := List.mem_range.mp hj
  have hdiv : (i * nindir ^ l + j) / nindir ^ l = i := by
    rw [Nat.mul_comm, Nat.mul_add_div (nindir_pow_pos l), Nat.div_eq_of_lt hj', Nat.add_zero]
  have hmod : (i * nindir ^ l + j) % nindir ^ l = j := by
    rw [Nat.mul_comm, Nat.mul_add_mod, Nat.mod_eq_of_lt hj']
  rw [Function.comp_apply, walk, if_neg h0, h]
  simp only
  rw [hdiv, hmod, hword i (List.mem_range.mp hi)]

def eventsOf (l : List Address) : Events := (l.filter (· ≠ .zero)).map Address.event

theorem eventsOf_append (l l' : List Address) : eventsOf (l ++ l') = eventsOf l ++ eventsOf l' := by
  rw [eventsOf, List.filter_append, List.map_append]
  rfl

theorem eventsOf_flatMap (l : List ℕ) (f : ℕ → List Address) :
    eventsOf (l.flatMap f) = l.flatMap fun n ↦ eventsOf (f n) := by
  induction l with
  | nil => rfl
  | cons n l ih => rw [List.flatMap_cons, List.flatMap_cons, eventsOf_append, ih]

theorem flatMap_filter_ne_zero (l : List ℕ) {f : ℕ → Events} (h : f 0 = []) :
    (l.filter (· ≠ 0)).flatMap f = l.flatMap f := by
  induction l with
  | nil => rfl
  | cons n l ih =>
    by_cases hn : n = 0
    · subst hn
      rw [List.filter_cons_of_neg (by simp), ih, List.flatMap_cons, h, List.nil_append]
    · rw [List.filter_cons_of_pos (by simpa using hn), List.flatMap_cons, List.flatMap_cons, ih]

theorem flatMap_ite (l : List ℕ) :
    (l.flatMap fun n ↦ if n = 0 then [] else [some n]) = (l.filter (· ≠ 0)).map some := by
  induction l with
  | nil => rfl
  | cons n l ih => by_cases hn : n = 0 <;> simp [hn, ih]

/-- Up to the first block that cannot be read the generator yields the leaves in their order. -/
theorem upToFailure_indirect (l number : ℕ) :
    upToFailure (fs.indirect (l + 1) number) = upToFailure (eventsOf (leaves fs.block (l + 1) number)) := by
  induction l generalizing number with
  | zero =>
    rw [FS.indirect]
    by_cases h0 : number = 0
    · rw [if_pos h0, h0, eventsOf, filter_leaves_zero]
      rfl
    rw [if_neg h0]
    cases h : fs.block number with
    | none =>
      rw [leaves_unreadable h0 h]
      rfl
    | some raw =>
      rw [leaves_succ h0 h, eventsOf_flatMap]
      simp only [↓reduceIte]
      have hleaf : (fun n ↦ eventsOf (leaves fs.block 0 n)) = fun n ↦ if n = 0 then [] else [some n] := by
        funext n
        by_cases hn : n = 0 <;> simp [eventsOf, leaves, walk, hn, Address.event]
      rw [hleaf, flatMap_ite]
  | succ l ih =>
    rw [FS.indirect]
    by_cases h0 : number = 0
    · rw [if_pos h0, h0, eventsOf, filter_leaves_zero]
      rfl
    rw [if_neg h0]
    cases h : fs.block number with
    | none =>
      rw [leaves_unreadable h0 h]
      obtain ⟨k, hk⟩ : ∃ k, nindir ^ (l + 1 + 1) = k + 1 :=
        Nat.exists_eq_succ_of_ne_zero (nindir_pow_pos _).ne'
      rw [hk]
      rfl
    | some raw =>
      rw [leaves_succ h0 h, eventsOf_flatMap]
      simp only [Nat.succ_ne_zero, ↓reduceIte]
      rw [← flatMap_filter_ne_zero (words raw) (f := fun n ↦ eventsOf (leaves fs.block (l + 1) n))
        (by rw [eventsOf, filter_leaves_zero]; rfl)]
      exact upToFailure_flatMap_congr fun n _ ↦ ih n

/-- The places of a file behind its direct blocks, in their order. -/
def places (rd : ℕ → Option (List Byte)) (ip : Inode) : List Address :=
  leaves rd 1 (ip.addr.getD 10 0) ++ leaves rd 2 (ip.addr.getD 11 0) ++
    leaves rd 3 (ip.addr.getD 12 0)

/-- The addresses among them, without the holes. -/
def found (fs : FS) (ip : Inode) : List Address := (places fs.block ip).filter (· ≠ .zero)

theorem upToFailure_indirects (ip : Inode) :
    upToFailure (((ip.addr.drop ndirect).zipIdx 1).flatMap fun p ↦ fs.indirect p.2 p.1) =
      upToFailure ((found fs ip).map Address.event) := by
  obtain ⟨size, addr, hlen, hlt⟩ := ip
  have hdrop : addr.drop ndirect = [addr.getD 10 0, addr.getD 11 0, addr.getD 12 0] := by
    have hlen' : addr.length = 13 := hlen
    apply List.ext_getElem
    · simp [hlen', ndirect, naddr]
    · intro i hi hi'
      simp only [List.length_cons, List.length_nil] at hi'
      rw [List.getElem_drop]
      have hcases : i = 0 ∨ i = 1 ∨ i = 2 := by omega
      rcases hcases with rfl | rfl | rfl <;> simp [ndirect, naddr, hlen']
  have hfound : (found fs ⟨size, addr, hlen, hlt⟩).map Address.event =
      eventsOf (leaves fs.block 1 (addr.getD 10 0)) ++ (eventsOf (leaves fs.block 2 (addr.getD 11 0)) ++
        (eventsOf (leaves fs.block 3 (addr.getD 12 0)) ++ [])) := by
    rw [List.append_nil, ← List.append_assoc, ← eventsOf_append, ← eventsOf_append]
    rfl
  rw [hfound]
  rw [hdrop]
  change upToFailure (fs.indirect 1 _ ++ (fs.indirect 2 _ ++ (fs.indirect 3 _ ++ []))) = _
  refine upToFailure_append_congr (upToFailure_indirect 0 _) ?_
  refine upToFailure_append_congr (upToFailure_indirect 1 _) ?_
  exact upToFailure_append_congr (upToFailure_indirect 2 _) rfl

end Tree

section Kernel

variable {fs : FS} {ip : Inode}

/-- What `bmap` makes of an address. -/
def Address.mapped : Address → Except Errno ℤ
  | zero => .ok (-1)
  | unreadable => .error .eio
  | word n => .ok (daddr n)

/-- What the kernel reads at the number in a word. -/
def FS.kernelBlock (fs : FS) (word : ℕ) : Option (List Byte) := bread fs (daddr word)

/-- The bytes that the kernel finds at an address. -/
def Address.held (fs : FS) : Address → Option (List Byte)
  | zero => some (List.replicate bsize 0)
  | unreadable => none
  | word n => if daddr n = -1 then some (List.replicate bsize 0) else fs.kernelBlock n

theorem long_lt (raw : List Byte) : long raw < 256 ^ raw.length := by
  induction raw using List.reverseRecOn with
  | nil => exact Nat.one_pos
  | append_singleton raw b ih =>
    have hb := b.isLt
    rw [long] at ih ⊢
    rw [List.foldl_append, List.length_append, List.length_singleton, Nat.pow_succ]
    simp only [List.foldl_cons, List.foldl_nil]
    omega

theorem words_lt (raw : List Byte) (i : ℕ) : (words raw).getD i 0 < 2 ^ 32 := by
  rw [List.getD_eq_getElem?_getD, words, List.getElem?_map]
  cases (List.range nindir)[i]? with
  | none => exact Nat.two_pow_pos 32
  | some j =>
    refine (long_lt _).trans_le ?_
    have hlen : ((raw.drop (4 * j)).take 4).length ≤ 4 := List.length_take_le _ _
    exact Nat.pow_le_pow_right (by decide) hlen

/-- Shifting and masking is the way down the tree. -/
theorem fetch_eq_walk (bn l n : ℕ) (h0 : n ≠ 0) (hn : n < 2 ^ 32) :
    fetch fs bn l (nshift * l) (daddr n) =
      (walk fs.kernelBlock l n (bn % nindir ^ l)).mapped := by
  induction l generalizing n with
  | zero => rw [fetch, walk, if_neg h0, Address.mapped]
  | succ l ih =>
    rw [fetch, walk, if_neg h0, FS.kernelBlock]
    cases hblock : bread fs (daddr n) with
    | none => rfl
    | some raw =>
      have hshift : nshift * (l + 1) - nshift = nshift * l := by rw [Nat.mul_succ, Nat.add_sub_cancel]
      have hpow : 2 ^ (nshift * l) = nindir ^ l := Nat.pow_mul 2 7 l
      have hindex : (bn >>> (nshift * l)) &&& nmask = bn % nindir ^ (l + 1) / nindir ^ l := by
        rw [Nat.shiftRight_eq_div_pow, hpow, Nat.pow_succ, Nat.mod_mul_right_div_self]
        exact Nat.and_two_pow_sub_one_eq_mod _ 7
      have hrest : bn % nindir ^ (l + 1) % nindir ^ l = bn % nindir ^ l :=
        Nat.mod_mod_of_dvd _ (Nat.pow_dvd_pow _ (Nat.le_succ l))
      simp only [hshift, hindex, hrest]
      generalize bn % nindir ^ (l + 1) / nindir ^ l = i
      have hword := words_lt raw i
      by_cases hz : (words raw).getD i 0 = 0
      · rw [hz, walk_zero]
        rfl
      · have hdaddr : daddr ((words raw).getD i 0) ≠ 0 := by
          rw [daddr]
          split <;> omega
        rw [if_neg hdaddr, ih _ hz hword]

theorem getElem?_leaves {rd : ℕ → Option (List Byte)} {l number i : ℕ} (hi : i < nindir ^ l) :
    (leaves rd l number)[i]? = some (walk rd l number i) := by
  rw [leaves, List.getElem?_map, List.getElem?_range hi]
  rfl

theorem length_leaves (rd : ℕ → Option (List Byte)) (l number : ℕ) :
    (leaves rd l number).length = nindir ^ l := by
  rw [leaves, List.length_map, List.length_range]

theorem mapped_walk {l number bn : ℕ} (hbn : bn < nindir ^ l) (hn : number < 2 ^ 24) :
    (if number = 0 then .ok (-1) else fetch fs bn l (nshift * l) number) =
      (walk fs.kernelBlock l number bn).mapped := by
  by_cases h0 : number = 0
  · rw [if_pos h0, h0, walk_zero]
    rfl
  · have hdaddr : daddr number = number := by rw [daddr, if_pos (by omega)]
    rw [if_neg h0, ← hdaddr, fetch_eq_walk bn l number h0 (by omega), Nat.mod_eq_of_lt hbn]

theorem addr_getD_lt (ip : Inode) (k : ℕ) : ip.addr.getD k 0 < 2 ^ 24 := by
  rw [List.getD_eq_getElem?_getD]
  cases hk : ip.addr[k]? with
  | none => exact Nat.two_pow_pos 24
  | some a => exact ip.addr_lt a (List.mem_of_getElem? hk)

theorem levels_pow (j l bn : ℕ) :
    levels (j + 1) (nshift * l) (nindir ^ l) bn =
      if bn < nindir ^ (l + 1) then some (j + 1, nshift * (l + 1), bn)
      else levels j (nshift * (l + 1)) (nindir ^ (l + 1)) (bn - nindir ^ (l + 1)) := by
  have hpow : nindir ^ l <<< nshift = nindir ^ (l + 1) := by
    rw [Nat.shiftLeft_eq, Nat.pow_succ]
    rfl
  rw [levels, hpow, Nat.mul_succ]

theorem levels_three (bn : ℕ) :
    levels 3 0 1 bn =
      if bn < nindir ^ 1 then some (3, nshift * 1, bn)
      else if bn - nindir ^ 1 < nindir ^ 2 then some (2, nshift * 2, bn - nindir ^ 1)
      else if bn - nindir ^ 1 - nindir ^ 2 < nindir ^ 3 then
        some (1, nshift * 3, bn - nindir ^ 1 - nindir ^ 2)
      else none := by
  have h := levels_pow 2 0 bn
  rw [levels_pow 1 1, levels_pow 0 2] at h
  exact h

/-- Behind the direct blocks `bmap` finds the places of the tree in their order. -/
theorem bmap_eq_places (fs : FS) (ip : Inode) (i : ℕ) :
    bmap fs ip (ndirect + i) =
      match (places fs.kernelBlock ip)[i]? with
      | none => .error .efbig
      | some address => address.mapped := by
  have hbn : ndirect + i - (naddr - 3) = i := by simp [ndirect]
  have hmany : ¬ ndirect + i < naddr - 3 := by simp [ndirect]
  rw [bmap, if_neg hmany, hbn, levels_three, places]
  by_cases hsingle : i < nindir ^ 1
  · rw [if_pos hsingle, List.getElem?_append_left (by simp only [List.length_append, length_leaves]; omega),
      List.getElem?_append_left (by rw [length_leaves]; exact hsingle), getElem?_leaves hsingle]
    exact mapped_walk hsingle (addr_getD_lt ip 10)
  rw [if_neg hsingle]
  by_cases hdouble : i - nindir ^ 1 < nindir ^ 2
  · rw [if_pos hdouble, List.getElem?_append_left (by simp only [List.length_append, length_leaves]; omega),
      List.getElem?_append_right (by rw [length_leaves]; omega), length_leaves, getElem?_leaves hdouble]
    exact mapped_walk hdouble (addr_getD_lt ip 11)
  rw [if_neg hdouble,
    List.getElem?_append_right (by simp only [List.length_append, length_leaves]; omega),
    List.length_append, length_leaves, length_leaves, ← Nat.sub_sub]
  by_cases htriple : i - nindir ^ 1 - nindir ^ 2 < nindir ^ 3
  · rw [if_pos htriple, getElem?_leaves htriple]
    exact mapped_walk htriple (addr_getD_lt ip 12)
  · rw [if_neg htriple, List.getElem?_eq_none (by rw [length_leaves]; omega)]

theorem kernelByte_mul_add (k : ℕ) {j : ℕ} (hj : j < bsize) :
    kernelByte fs ip (k * bsize + j) =
      match bmap fs ip k with
      | .error _ => none
      | .ok nb => if nb = -1 then some 0 else (bread fs nb).bind (·[j]?) := by
  have hdiv : (k * bsize + j) / bsize = k := by
    rw [Nat.mul_comm, Nat.mul_add_div (by decide), Nat.div_eq_of_lt hj, Nat.add_zero]
  have hmod : (k * bsize + j) % bsize = j := by
    rw [Nat.mul_comm, Nat.mul_add_mod, Nat.mod_eq_of_lt hj]
  exact congrArg₂ (fun q r ↦
    match bmap fs ip q with
    | .error _ => none
    | .ok nb => if nb = -1 then some 0 else (bread fs nb).bind (·[r]?)) hdiv hmod

theorem kernelByte_later (i : ℕ) {j : ℕ} (hj : j < bsize) :
    kernelByte fs ip ((ndirect + i) * bsize + j) =
      ((places fs.kernelBlock ip)[i]?.bind (Address.held fs)).bind (·[j]?) := by
  rw [kernelByte_mul_add _ hj, bmap_eq_places]
  have hzero : (List.replicate bsize (0 : Byte))[j]? = some 0 := List.getElem?_replicate_of_lt hj
  rcases (places fs.kernelBlock ip)[i]? with - | ⟨- | - | n⟩
  · rfl
  · exact hzero.symm
  · rfl
  · simp only [Address.mapped, Address.held, Option.bind_some]
    by_cases hn : daddr n = -1
    · rw [if_pos hn, if_pos hn]
      exact hzero.symm
    · rw [if_neg hn, if_neg hn]
      rfl

/-- The direct blocks are the same on both sides. -/
theorem kernelByte_direct {k j : ℕ} (hk : k < ndirect) (hj : j < bsize) {raw : List Byte}
    (h : fs.chunk (ip.addr.getD k 0) = some raw) : kernelByte fs ip (k * bsize + j) = raw[j]? := by
  have hk' : k < naddr - 3 := hk
  rw [kernelByte_mul_add _ hj, bmap, if_pos hk']
  rw [FS.chunk] at h
  by_cases h0 : ip.addr.getD k 0 = 0
  · rw [if_pos h0] at h
    simp only [if_pos h0, ↓reduceIte]
    rw [← Option.some.inj h, List.getElem?_replicate_of_lt hj]
  · rw [if_neg h0] at h
    have hnat : ((ip.addr.getD k 0 : ℕ) : ℤ) ≠ -1 := by omega
    have hbread : bread fs (ip.addr.getD k 0 : ℕ) = some raw := by
      rw [bread, if_neg (by omega), Int.toNat_natCast, h]
    simp only [if_neg h0, if_neg hnat, hbread, Option.bind_some]

end Kernel

section Read

variable {fs : FS} {ip : Inode}

/-- Block `k` of what the tool returns: a direct block, or the block at the next address that is
not zero. -/
def content (fs : FS) (ip : Inode) (k : ℕ) : Option (List Byte) :=
  if k < ndirect then fs.chunk (ip.addr.getD k 0)
  else (found fs ip)[k - ndirect]?.bind fun address ↦ fs.fetch address.event

theorem length_of_block {number : ℕ} {raw : List Byte} (h : fs.block number = some raw) :
    raw.length = bsize := by
  rw [FS.block] at h
  split at h
  · rename_i hlen
    rw [← Option.some.inj h]
    exact hlen
  · cases h

theorem length_of_chunk {number : ℕ} {raw : List Byte} (h : fs.chunk number = some raw) :
    raw.length = bsize := by
  rw [FS.chunk] at h
  split at h
  · rw [← Option.some.inj h, List.length_replicate]
  · exact length_of_block h

theorem length_of_fetch {event : Option ℕ} {raw : List Byte} (h : fs.fetch event = some raw) :
    raw.length = bsize := by
  cases event with
  | none => cases h
  | some number => exact length_of_chunk h

theorem blocks_eq (fs : FS) (ip : Inode) :
    fs.blocks ip =
      if ip.count < ndirect then (ip.addr.take ip.count).map some
      else (ip.addr.take ndirect).map some ++
        consume (ip.count - ndirect) ((found fs ip).map Address.event) := by
  rw [FS.blocks, consume_congr (upToFailure_indirects ip)]
  split
  · rename_i h
    rw [List.take_take, Nat.min_eq_left h.le]
  · rfl

theorem getElem?_direct {k : ℕ} (hk : k < ndirect) : ip.addr[k]? = some (ip.addr.getD k 0) := by
  have hlen : ip.addr.length = 13 := ip.length_addr
  have hk' : k < ip.addr.length := by
    simp only [ndirect, naddr] at hk
    omega
  rw [List.getD_eq_getElem _ _ hk', List.getElem?_eq_getElem hk']

theorem length_direct {n : ℕ} (hn : n ≤ ndirect) : (ip.addr.take n).length = n := by
  have hlen : ip.addr.length = 13 := ip.length_addr
  simp only [ndirect, naddr] at hn
  rw [List.length_take]
  omega

/-- What the generator yields at a place, when all that is wanted has come. -/
theorem fetch_blocks {k : ℕ} (hk : k < ip.count)
    (hlater : ndirect ≤ ip.count → consume (ip.count - ndirect) ((found fs ip).map Address.event) =
      ((found fs ip).map Address.event).take (ip.count - ndirect)) :
    (fs.blocks ip)[k]?.bind fs.fetch = content fs ip k := by
  rw [blocks_eq, content]
  by_cases hfew : ip.count < ndirect
  · have hk' : k < ndirect := by omega
    rw [if_pos hfew, if_pos hk', List.getElem?_map, List.getElem?_take_of_lt hk, getElem?_direct hk']
    rfl
  · rw [if_neg hfew, hlater (by omega)]
    by_cases hk' : k < ndirect
    · rw [if_pos hk', List.getElem?_append_left (by rw [List.length_map, length_direct le_rfl]; exact hk'),
        List.getElem?_map, List.getElem?_take_of_lt hk', getElem?_direct hk']
      rfl
    · rw [if_neg hk', List.getElem?_append_right (by rw [List.length_map, length_direct le_rfl]; omega),
        List.length_map, length_direct le_rfl, List.getElem?_take_of_lt (by omega), List.getElem?_map]
      cases (found fs ip)[k - ndirect]? <;> rfl

theorem found_ne_zero (i : ℕ) : (found fs ip)[i]? ≠ some .zero := by
  intro h
  have hmem := List.mem_of_getElem? h
  simp [found] at hmem

theorem walk_ne_word_zero {rd : ℕ → Option (List Byte)} (l number index : ℕ) :
    walk rd l number index ≠ .word 0 := by
  induction l generalizing number index with
  | zero =>
    rw [walk]
    by_cases h0 : number = 0
    · rw [if_pos h0]
      exact Address.noConfusion
    · rw [if_neg h0]
      exact fun h ↦ h0 (Address.word.inj h)
  | succ l ih =>
    rw [walk]
    by_cases h0 : number = 0
    · rw [if_pos h0]
      exact Address.noConfusion
    · rw [if_neg h0]
      cases rd number with
      | none => exact Address.noConfusion
      | some raw => exact ih _ _

theorem word_ne_zero {i n : ℕ} (h : (found fs ip)[i]? = some (.word n)) : n ≠ 0 := by
  rintro rfl
  have hmem := List.mem_of_mem_filter (List.mem_of_getElem? h)
  rw [places, List.mem_append, List.mem_append] at hmem
  obtain (hmem | hmem) | hmem := hmem <;> obtain ⟨index, -, hword⟩ := List.mem_map.mp hmem <;>
    exact walk_ne_word_zero _ _ _ hword

/-- The blocks that a successful read joins. -/
theorem content_of_chunks {chunks : List (List Byte)}
    (h : (fs.blocks ip).mapM fs.fetch = some chunks) (hlen : ip.count ≤ chunks.length) :
    (ndirect ≤ ip.count → (found fs ip)[ip.count - ndirect]? ≠ some .unreadable) ∧
      chunks.length = ip.count ∧ ∀ k < ip.count, content fs ip k = chunks[k]? := by
  have hall := Traversal.mapM_eq_some.mp h
  have hlength : (fs.blocks ip).length = chunks.length := hall.length_eq
  have hnone : none ∉ fs.blocks ip := by
    intro hmem
    obtain ⟨i, hi, hget⟩ := List.mem_iff_getElem.mp hmem
    have hfetch := List.forall₂_iff_get.mp hall
    have hbad := hfetch.2 i hi (by omega)
    rw [List.get_eq_getElem, hget] at hbad
    cases hbad
  have hcount : (fs.blocks ip).length = ip.count ∧ (ndirect ≤ ip.count →
      (∀ i < ip.count - ndirect, ∃ n, ((found fs ip).map Address.event)[i]? = some (some n)) ∧
        ((found fs ip).map Address.event)[ip.count - ndirect]? ≠ some none) := by
    rw [blocks_eq] at hnone hlength ⊢
    split at hlength
    · rename_i hfew
      rw [if_pos hfew, List.length_map, length_direct hfew.le]
      exact ⟨rfl, fun hmany ↦ absurd hmany (by omega)⟩
    · rename_i hmany
      rw [if_neg hmany] at hnone ⊢
      rw [List.mem_append, not_or] at hnone
      rw [List.length_append, List.length_map, length_direct le_rfl] at hlength ⊢
      have hle := length_consume_le hnone.2
      have heq : (consume (ip.count - ndirect) ((found fs ip).map Address.event)).length =
          ip.count - ndirect := by omega
      exact ⟨by omega, fun _ ↦ of_consume hnone.2 heq⟩
  refine ⟨fun hmany hbad ↦ ?_, by omega, fun k hk ↦ ?_⟩
  · apply (hcount.2 hmany).2
    rw [List.getElem?_map, hbad]
    rfl
  · rw [← fetch_blocks hk fun hmany ↦ consume_eq_take (hcount.2 hmany).1 (hcount.2 hmany).2]
    have hk' : k < (fs.blocks ip).length := by omega
    have hfetch := (List.forall₂_iff_get.mp hall).2 k hk' (by omega)
    rw [List.getElem?_eq_getElem hk', List.getElem?_eq_getElem (by omega)]
    exact hfetch

/-- When all of them can be read, the blocks are joined. -/
theorem chunks_of_content
    (hahead : ndirect ≤ ip.count → (found fs ip)[ip.count - ndirect]? ≠ some .unreadable)
    (h : ∀ k < ip.count, ∃ raw, content fs ip k = some raw) :
    ∃ chunks, (fs.blocks ip).mapM fs.fetch = some chunks ∧ chunks.length = ip.count ∧
      ∀ k < ip.count, content fs ip k = chunks[k]? := by
  have hwanted : ndirect ≤ ip.count → ∀ i < ip.count - ndirect, ∃ n,
      ((found fs ip).map Address.event)[i]? = some (some n) := by
    intro hmany i hi
    obtain ⟨raw, hraw⟩ := h (ndirect + i) (by omega)
    rw [content, if_neg (by omega), Nat.add_sub_cancel_left] at hraw
    rw [List.getElem?_map]
    cases hfound : (found fs ip)[i]? with
    | none =>
      rw [hfound] at hraw
      cases hraw
    | some address =>
      rw [hfound] at hraw
      cases address with
      | zero => exact absurd hfound (found_ne_zero i)
      | unreadable => cases hraw
      | word n => exact ⟨n, rfl⟩
  have hnext : ndirect ≤ ip.count →
      ((found fs ip).map Address.event)[ip.count - ndirect]? ≠ some none := by
    intro hmany
    rw [List.getElem?_map]
    cases hfound : (found fs ip)[ip.count - ndirect]? with
    | none => simp
    | some address =>
      cases address with
      | zero => exact absurd hfound (found_ne_zero _)
      | unreadable => exact absurd hfound (hahead hmany)
      | word n => simp [Address.event]
  have hlater := fun hmany ↦ consume_eq_take (hwanted hmany) (hnext hmany)
  have hlength : (fs.blocks ip).length = ip.count := by
    rw [blocks_eq]
    split
    · rename_i hfew
      rw [List.length_map, length_direct hfew.le]
    · rename_i hmany
      rw [hlater (by omega), List.length_append, List.length_map, length_direct le_rfl, List.length_take]
      -- The last of those that are wanted is there.
      have hlong : ip.count - ndirect ≤ ((found fs ip).map Address.event).length := by
        by_contra hshort
        obtain ⟨n, hn⟩ := hwanted (by omega) ((found fs ip).map Address.event).length (by omega)
        rw [List.getElem?_eq_none le_rfl] at hn
        cases hn
      omega
  have hfetch : ∀ event ∈ fs.blocks ip, fs.fetch event = some ((fs.fetch event).getD []) := by
    intro event hmem
    obtain ⟨k, hk, rfl⟩ := List.mem_iff_getElem.mp hmem
    obtain ⟨raw, hraw⟩ := h k (by omega)
    rw [← fetch_blocks (by omega) hlater, List.getElem?_eq_getElem hk, Option.bind_some] at hraw
    rw [hraw]
    rfl
  refine ⟨(fs.blocks ip).map fun event ↦ (fs.fetch event).getD [], ?_, ?_, ?_⟩
  · rw [Traversal.mapM_eq_some, List.forall₂_map_right_iff, List.forall₂_same]
    exact hfetch
  · rw [List.length_map, hlength]
  · intro k hk
    have hk' : k < (fs.blocks ip).length := by omega
    rw [← fetch_blocks hk hlater, List.getElem?_map, List.getElem?_eq_getElem hk', Option.bind_some,
      Option.map_some]
    exact hfetch _ (List.getElem_mem hk')

theorem lt_count_iff (k : ℕ) : k < ip.count ↔ k * bsize < ip.size := by
  simp only [Inode.count, bsize]
  omega

/-- Block by block, what the tool joins has to be what the kernel finds. -/
theorem readsAsKernel_iff_content (fs : FS) (ip : Inode) :
    ReadsAsKernel fs ip ↔
      (ndirect ≤ ip.count → (found fs ip)[ip.count - ndirect]? ≠ some .unreadable) ∧
        ∀ k < ip.count, ∃ raw, content fs ip k = some raw ∧
          ∀ j < bsize, k * bsize + j < ip.size → kernelByte fs ip (k * bsize + j) = raw[j]? := by
  have hlengths : ∀ {chunks : List (List Byte)}, (fs.blocks ip).mapM fs.fetch = some chunks →
      ∀ c ∈ chunks, c.length = bsize := by
    intro chunks h c hc
    obtain ⟨k, hk, rfl⟩ := List.mem_iff_getElem.mp hc
    have hall := List.forall₂_iff_get.mp (Traversal.mapM_eq_some.mp h)
    exact length_of_fetch (hall.2 k (by rw [hall.1]; exact hk) hk)
  have hpos : 0 < bsize := by decide
  have hcover : ip.size ≤ bsize * ip.count := by
    simp only [Inode.count, bsize]
    omega
  constructor
  · rintro ⟨data, hread, hlen, hbytes⟩
    rw [FS.read, Option.map_eq_some_iff] at hread
    obtain ⟨chunks, hchunks, rfl⟩ := hread
    have huniform := hlengths hchunks
    rw [List.length_take, length_flatten huniform] at hlen
    have henough : ip.count ≤ chunks.length := by
      simp only [Inode.count, bsize] at hlen ⊢
      omega
    obtain ⟨hahead, hcount, hcontent⟩ := content_of_chunks hchunks henough
    refine ⟨hahead, fun k hk ↦ ?_⟩
    have hk' : k < chunks.length := by omega
    refine ⟨chunks[k], by rw [hcontent k hk, List.getElem?_eq_getElem hk'], fun j hj hsize ↦ ?_⟩
    have hdiv : (k * bsize + j) / bsize = k := by
      rw [Nat.mul_comm, Nat.mul_add_div hpos, Nat.div_eq_of_lt hj, Nat.add_zero]
    have hmod : (k * bsize + j) % bsize = j := by
      rw [Nat.mul_comm, Nat.mul_add_mod, Nat.mod_eq_of_lt hj]
    rw [hbytes _ hsize, List.getElem?_take_of_lt hsize, getElem?_flatten hpos huniform, hdiv, hmod,
      List.getElem?_eq_getElem hk', Option.bind_some]
  · rintro ⟨hahead, hbytes⟩
    obtain ⟨chunks, hchunks, hcount, hcontent⟩ :=
      chunks_of_content hahead fun k hk ↦ (hbytes k hk).imp fun raw h ↦ h.1
    have huniform := hlengths hchunks
    refine ⟨chunks.flatten.take ip.size, by rw [FS.read, hchunks]; rfl, ?_, fun k hk ↦ ?_⟩
    · rw [List.length_take, length_flatten huniform, hcount]
      omega
    · have hdiv : k / bsize < ip.count := by
        rw [lt_count_iff]
        exact (Nat.div_mul_le_self k bsize).trans_lt hk
      obtain ⟨raw, hraw, hbyte⟩ := hbytes _ hdiv
      have hk' : k / bsize * bsize + k % bsize = k := Nat.div_add_mod' k bsize
      have hsame := hbyte (k % bsize) (Nat.mod_lt k hpos) (by rw [hk']; exact hk)
      rw [hk'] at hsame
      rw [hsame, List.getElem?_take_of_lt hk, getElem?_flatten hpos huniform, ← hcontent _ hdiv, hraw,
        Option.bind_some]

/-- Leaving out the holes behind the direct blocks cannot be seen: the address that is found in the
place of another one leads to the same bytes. -/
structure Unshifted (fs : FS) (ip : Inode) : Prop where
  direct : ∀ k < ndirect, k < ip.count → ∃ raw, fs.chunk (ip.addr.getD k 0) = some raw
  ahead : ndirect ≤ ip.count → (found fs ip)[ip.count - ndirect]? ≠ some .unreadable
  later : ∀ i < ip.count - ndirect, ∃ n raw, (found fs ip)[i]? = some (.word n) ∧
    fs.block n = some raw ∧ ∀ j < bsize, (ndirect + i) * bsize + j < ip.size →
      ((places fs.kernelBlock ip)[i]?.bind (Address.held fs)).bind (·[j]?) = raw[j]?

/-- What the tool joins behind the direct blocks stands at an address. -/
theorem content_later {i : ℕ} {raw : List Byte} :
    content fs ip (ndirect + i) = some raw ↔
      ∃ n, (found fs ip)[i]? = some (.word n) ∧ fs.block n = some raw := by
  rw [content, if_neg (by omega), Nat.add_sub_cancel_left]
  constructor
  · intro h
    cases hfound : (found fs ip)[i]? with
    | none =>
      rw [hfound] at h
      cases h
    | some address =>
      rw [hfound] at h
      cases address with
      | zero => exact absurd hfound (found_ne_zero i)
      | unreadable => cases h
      | word n =>
        have hn : n ≠ 0 := word_ne_zero hfound
        refine ⟨n, rfl, ?_⟩
        change fs.chunk n = some raw at h
        rwa [FS.chunk, if_neg hn] at h
  · rintro ⟨n, hfound, hraw⟩
    rw [hfound, Option.bind_some]
    change fs.chunk n = some raw
    rw [FS.chunk, if_neg (word_ne_zero hfound), hraw]

/-- The tool agrees with the kernel exactly when its leaving out the holes cannot be seen. -/
theorem read_follows_bmap_iff (fs : FS) (ip : Inode) : ReadsAsKernel fs ip ↔ Unshifted fs ip := by
  rw [readsAsKernel_iff_content]
  constructor
  · rintro ⟨hahead, hcontent⟩
    refine ⟨fun k hk hcount ↦ ?_, hahead, fun i hi ↦ ?_⟩
    · obtain ⟨raw, hraw, -⟩ := hcontent k hcount
      rw [content, if_pos hk] at hraw
      exact ⟨raw, hraw⟩
    · obtain ⟨raw, hraw, hbytes⟩ := hcontent (ndirect + i) (by omega)
      obtain ⟨n, hfound, hblock⟩ := content_later.mp hraw
      refine ⟨n, raw, hfound, hblock, fun j hj hsize ↦ ?_⟩
      rw [← kernelByte_later i hj, hbytes j hj hsize]
  · rintro ⟨hdirect, hahead, hlater⟩
    refine ⟨hahead, fun k hk ↦ ?_⟩
    by_cases hk' : k < ndirect
    · obtain ⟨raw, hraw⟩ := hdirect k hk' hk
      exact ⟨raw, by rw [content, if_pos hk', hraw], fun j hj _ ↦ kernelByte_direct hk' hj hraw⟩
    · obtain ⟨i, rfl⟩ := Nat.exists_eq_add_of_le (Nat.le_of_not_lt hk')
      obtain ⟨n, raw, hfound, hblock, hbytes⟩ := hlater i (by omega)
      refine ⟨raw, content_later.mpr ⟨n, hfound, hblock⟩, fun j hj hsize ↦ ?_⟩
      rw [kernelByte_later i hj, hbytes j hj hsize]

/-- A file whose first block behind the direct ones is a hole and whose next one is not. -/
def holed : FS where
  data := List.replicate bsize 0 ++ [0, 0, 0, 0, 0, 0, 0, 2] ++ List.replicate (bsize - 8) 0 ++
    List.replicate bsize 0xAA
  base := 0

def holedInode : Inode where
  size := ndirect * bsize + 1
  addr := List.replicate ndirect 0 ++ [1, 0, 0]
  length_addr := rfl
  addr_lt := by decide

theorem hole_is_left_out : ¬ ReadsAsKernel holed holedInode := by
  rintro ⟨data, hread, -, hbytes⟩
  have htool : (holed.read holedInode).map (·[5120]?) = some (some 0xAA) := by decide +kernel
  have hkernel : kernelByte holed holedInode 5120 = some 0 := by decide +kernel
  have hsame := hbytes 5120 (by decide)
  rw [hread, Option.map_some, Option.some.injEq] at htool
  rw [hkernel, htool] at hsame
  exact absurd hsame (by decide)

end Read

end S8000.Wega
