import S8000.Dump.Header
import S8000.Foundation.Dict

namespace S8000.Dump

open Foundation Foundation.Bytes

abbrev Inodes := Dict ℕ Dinode
abbrev Blocks := Dict ℕ (Dict ℕ Record)

/-- `blocks[ino][lb] = r` on a dictionary that creates missing keys. -/
def setBlock (blocks : Blocks) (ino lb : ℕ) (r : Record) : Blocks :=
  blocks.set ino ((blocks.getD ino ∅).set lb r)

/-- `blocks[ino].get(lb)`. -/
def blockAt (blocks : Blocks) (ino lb : ℕ) : Option Record := (blocks.getD ino ∅).get? lb

/-- The result, the next map index and the next logical block. -/
def takeSlot (amap : List Byte) (ai logical : ℕ) : Option ℕ × ℕ × ℕ :=
  if h : ai < amap.length then
    if amap[ai] = 0 then takeSlot amap (ai + 1) (logical + 1)
    else (some logical, ai + 1, logical + 1)
  else (none, ai, logical)
termination_by amap.length - ai

structure Walk where
  tapehdr : Option Header := none
  inodes : Inodes := ∅
  blocks : Blocks := ∅
  order : List (ℕ × ℕ) := []
  orphans : List (ℕ × Record) := []
  cur : Option ℕ := none
  amap : List Byte := []
  ai : ℕ := 0
  logical : ℕ := 0

namespace Walk

def header (st : Walk) (r : Record) (h : Header) : Walk :=
  if h.type = tsTape then { st with tapehdr := some h, cur := none, amap := [] }
  else if h.type = tsInode then
    { st with
      inodes := st.inodes.set h.inum r.dinode
      order := st.order ++ [(h.tapea, h.inum)]
      cur := some h.inum
      amap := r.addrMap
      ai := 0
      logical := 0 }
  else if h.type = tsAddr then { st with amap := r.addrMap, ai := 0 }
  else { st with cur := none, amap := [] }

/-- `take_slot()` as the loop calls it, with the inode it fills. -/
def slot (st : Walk) : Option (ℕ × ℕ) × Walk :=
  match st.cur with
  | none => (none, st)
  | some ino =>
    let (lb, ai, logical) := takeSlot st.amap st.ai st.logical
    (lb.map (ino, ·), { st with ai := ai, logical := logical })

def data (st : Walk) (r : Record) (n : ℕ) : Walk :=
  match st.slot with
  | (none, st) => { st with orphans := st.orphans ++ [(n, r)] }
  | (some (ino, lb), st) => { st with blocks := setBlock st.blocks ino lb r }

/-- The body of the loop over record numbers; a lost record still consumes a map slot. -/
def step (st : Walk) : Option Record × ℕ → Walk
  | (none, _) => st.slot.2
  | (some r, n) =>
    match parseHeader r with
    | some h => st.header r h
    | none => st.data r n

/-- Where the loop body stores a record, if it is a data record and has a place. -/
def placement (st : Walk) : Option Record → Option (ℕ × ℕ)
  | none => none
  | some r => if parseHeader r = none then st.slot.1 else none

end Walk

structure Parsed where
  tapehdr : Option Header
  inodes : Inodes
  blocks : Blocks
  order : List (ℕ × ℕ)
  missing : List ℕ
  orphans : List (ℕ × Record)

/-- The state of the loop when it reaches record number `n`. -/
def walkTo (tape : Dict ℕ Record) (n : ℕ) : Walk :=
  (((List.range n).map tape.get?).zipIdx).foldl Walk.step {}

/-- `none` is the error of `max` on an empty tape. -/
def parse (tape : Dict ℕ Record) : Option Parsed :=
  tape.keys.max?.map fun last ↦
    let st := walkTo tape (last + 1)
    { tapehdr := st.tapehdr
      inodes := st.inodes
      blocks := st.blocks
      order := st.order
      missing := (List.range (last + 1)).filter (· ∉ tape)
      orphans := st.orphans }

/-- `none` is the `KeyError` of an inode without an entry. -/
def filedata (ino : ℕ) (inodes : Inodes) (blocks : Blocks) : Option (List Byte) :=
  (inodes.get? ino).map fun d ↦
    ((List.range ((d.size + 511) / 512)).flatMap fun lb ↦
      ((blockAt blocks ino lb).map Record.bytes).getD (List.replicate 512 0)).take d.size

section Slot

variable {amap : List Byte} {ai logical : ℕ}

theorem takeSlot_exhausted (h : amap.length ≤ ai) :
    takeSlot amap ai logical = (none, ai, logical) := by
  rw [takeSlot, dif_neg (by omega)]

/-- The slot behind `k` pending holes. -/
theorem takeSlot_of_drop {k : ℕ} {b : Byte} {rest : List Byte} (hb : b ≠ 0)
    (h : amap.drop ai = List.replicate k 0 ++ b :: rest) :
    takeSlot amap ai logical = (some (logical + k), ai + k + 1, logical + k + 1) := by
  induction k generalizing ai logical with
  | zero =>
    have hlt : ai < amap.length := by
      by_contra hge
      rw [List.drop_eq_nil_of_le (by omega)] at h
      cases h
    rw [List.drop_eq_getElem_cons hlt] at h
    have hget : amap[ai] = b := (List.cons.inj h).1
    rw [takeSlot, dif_pos hlt, if_neg (hget ▸ hb)]
    rfl
  | succ k ih =>
    have hlt : ai < amap.length := by
      by_contra hge
      rw [List.drop_eq_nil_of_le (by omega)] at h
      cases h
    rw [List.drop_eq_getElem_cons hlt] at h
    obtain ⟨hget, hrest⟩ := List.cons.inj h
    rw [takeSlot, dif_pos hlt, if_pos hget, ih hrest]
    simp only [Prod.mk.injEq, Option.some.injEq]
    omega

end Slot

theorem blockAt_setBlock (blocks : Blocks) (ino lb : ℕ) (r : Record) (ino' lb' : ℕ) :
    blockAt (setBlock blocks ino lb r) ino' lb' =
      if ino = ino' ∧ lb = lb' then some r else blockAt blocks ino' lb' := by
  rw [blockAt, setBlock, Dict.getD_set]
  by_cases h : ino = ino'
  · subst h
    rw [if_pos rfl, Dict.get?_set]
    simp only [true_and]
    rfl
  · rw [if_neg h, if_neg (fun h' ↦ h h'.1)]
    rfl

namespace Walk

variable {st : Walk} {r : Record} {n : ℕ}

theorem step_header {h : Header} (hh : parseHeader r = some h) :
    st.step (some r, n) = st.header r h := by
  simp only [step, hh]

theorem step_data (hh : parseHeader r = none) : st.step (some r, n) = st.data r n := by
  simp only [step, hh]

theorem slot_of_cur_none (hc : st.cur = none) : st.slot = (none, st) := by
  simp only [slot, hc]

theorem slot_exhausted (h : st.amap.length ≤ st.ai) : st.slot = (none, st) := by
  unfold slot
  cases hc : st.cur with
  | none => rfl
  | some ino =>
    simp only [takeSlot_exhausted h]
    rw [← hc]
    rfl

theorem slot_of_drop {ino k : ℕ} {b : Byte} {rest : List Byte} (hc : st.cur = some ino)
    (hb : b ≠ 0) (h : st.amap.drop st.ai = List.replicate k 0 ++ b :: rest) :
    st.slot = (some (ino, st.logical + k),
      { st with ai := st.ai + k + 1, logical := st.logical + k + 1 }) := by
  simp only [slot, hc, takeSlot_of_drop hb h]
  rfl

theorem data_of_slot_none (h : st.slot = (none, st)) :
    st.data r n = { st with orphans := st.orphans ++ [(n, r)] } := by
  simp only [data, h]

end Walk

end S8000.Dump
