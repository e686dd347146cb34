import S8000.Foundation.Records
import Mathlib.Data.Fintype.Card

/-! The cache of block buffers. -/

namespace S8000.Filsys.Bio

open Foundation

def NBUF : ℕ := 29

section Code

/-- A buffer and its header. Its device is the root device, or `NODEV` when `bDev` is false. -/
structure Buf where
  bDev : Bool
  bBlkno : ℤ
  bAddr : Buffer
  done : Bool
  error : Bool
  busy : Bool
  age : Bool
  delwri : Bool

/-- The disk image: its number of blocks, which is unknown unless it is positive, and the transfers that fail. -/
structure Dsk where
  size : ℤ
  fails : ℕ → ℤ → Bool

/-- The buffers, the list of those that are available, the list of those of the root device, the disk, the number of
transfers so far, and whether an error was reported. -/
structure Pool where
  buf : Fin NBUF → Buf
  av : List (Fin NBUF)
  tab : List (Fin NBUF)
  disk : ℤ → Buffer
  ios : ℕ
  uError : Bool

variable (d : Dsk) (p : Pool) (i : Fin NBUF)

def Dsk.Holds (blkno : ℤ) : Prop := 0 ≤ blkno ∧ (d.size ≤ 0 ∨ blkno < d.size)

instance (blkno : ℤ) : Decidable (d.Holds blkno) := inferInstanceAs (Decidable (_ ∧ _))

def Pool.modify (f : Buf → Buf) : Pool := { p with buf := Function.update p.buf i (f (p.buf i)) }

/-- `dsk_read` and `dsk_write`: a block that the disk does not hold is passed over without an error. -/
def dskIo (read : Bool) : Pool :=
  let blkno := (p.buf i).bBlkno
  if ¬ d.Holds blkno then p
  else
    let q := { p with ios := p.ios + 1 }
    if d.fails p.ios blkno then q.modify i fun bp ↦ { bp with error := true }
    else if read then q.modify i fun bp ↦ { bp with bAddr := p.disk blkno }
    else { q with disk := Function.update p.disk blkno (p.buf i).bAddr }

def geterror : Pool := if (p.buf i).error then { p with uError := true } else p

def brelse : Pool :=
  let q := p.modify i fun bp ↦ { bp with bDev := bp.bDev && !bp.error, busy := false, age := false }
  { q with av := if (p.buf i).age then i :: p.av else p.av ++ [i] }

def iodone (async : Bool) : Pool :=
  let q := p.modify i fun bp ↦ { bp with done := true }
  if async then brelse q i else q

def strategy (read async : Bool) : Pool := iodone (dskIo d p i read) i async

def bwrite (async : Bool) : Pool :=
  let q := p.modify i fun bp ↦ { bp with done := false, error := false, delwri := false, age := false }
  let r := strategy d q i false async
  if ¬ async then brelse (geterror r i) i
  else if (p.buf i).delwri then r.modify i fun bp ↦ { bp with age := true }
  else geterror r i

def bdwrite : Pool := brelse (p.modify i fun bp ↦ { bp with delwri := true, done := true }) i

def notavail : Pool :=
  { p.modify i fun bp ↦ { bp with busy := true } with av := p.av.erase i }

/-- The buffer of a block. -/
def lookup (blkno : ℤ) : Option (Fin NBUF) :=
  p.tab.find? fun i ↦ (p.buf i).bBlkno = blkno ∧ (p.buf i).bDev

/-- A buffer leaves its old block. -/
def reassign (blkno : ℤ) : Pool :=
  { p.modify i fun bp ↦ ⟨true, blkno, bp.bAddr, false, false, true, false, false⟩ with tab := i :: p.tab.erase i }

/-- A buffer leaves its old block for none. -/
def discard : Pool :=
  { p.modify i fun bp ↦ ⟨false, bp.bBlkno, bp.bAddr, false, false, true, false, false⟩ with tab := p.tab.erase i }

/-- The loop of `getblk`; there is nobody to wait for, so it goes round for ever when the buffer is busy or none is
available. -/
def getblkLoop (blkno : ℤ) : ℕ → Pool → Option (Pool × Fin NBUF)
  | 0, _ => none
  | fuel + 1, p =>
    match lookup p blkno with
    | some i => if (p.buf i).busy then getblkLoop blkno fuel p else some (notavail p i, i)
    | none =>
      match p.av with
      | [] => getblkLoop blkno fuel p
      | i :: _ =>
        let q := notavail p i
        if (q.buf i).delwri then getblkLoop blkno fuel (bwrite d q i true) else some (reassign q i blkno, i)

def getblk (blkno : ℤ) : Option (Pool × Fin NBUF) := getblkLoop d blkno (NBUF + 1) p

def geteblkLoop : ℕ → Pool → Option (Pool × Fin NBUF)
  | 0, _ => none
  | fuel + 1, p =>
    match p.av with
    | [] => geteblkLoop fuel p
    | i :: _ =>
      let q := notavail p i
      if (q.buf i).delwri then geteblkLoop fuel (bwrite d q i true) else some (discard q i, i)

def geteblk : Option (Pool × Fin NBUF) := geteblkLoop d (NBUF + 1) p

def bread (blkno : ℤ) : Option (Pool × Fin NBUF) :=
  (getblk d p blkno).map fun (q, i) ↦
    if (q.buf i).done then (q, i) else (geterror (strategy d q i true false) i, i)

def incore (blkno : ℤ) : Prop := (lookup p blkno).isSome

instance (blkno : ℤ) : Decidable (incore p blkno) := inferInstanceAs (Decidable (_ = _))

/-- The block that may be read ahead stays available. -/
def readAhead (rablkno : ℤ) : Option Pool :=
  if rablkno ≠ 0 ∧ ¬ incore p rablkno then
    (getblk d p rablkno).map fun (q, i) ↦ if (q.buf i).done then brelse q i else strategy d q i true true
  else some p

def breada (blkno rablkno : ℤ) : Option (Pool × Fin NBUF) :=
  if incore p blkno then (readAhead d p rablkno).bind fun q ↦ bread d q blkno
  else
    (getblk d p blkno).bind fun (q, i) ↦
      (readAhead d (if (q.buf i).done then q else strategy d q i true false) rablkno).map fun r ↦ (geterror r i, i)

/-- Each round writes a buffer, so there are at most as many rounds as buffers. -/
def bflushLoop : ℕ → Pool → Pool
  | 0, p => p
  | fuel + 1, p =>
    match p.av.find? fun i ↦ (p.buf i).delwri with
    | none => p
    | some i => bflushLoop fuel (bwrite d (notavail p i) i true)

def bflush : Pool := bflushLoop d NBUF p

def binit (disk : ℤ → Buffer) : Pool :=
  { buf := fun _ ↦ ⟨false, 0, fun _ ↦ 0, false, false, false, false, false⟩
    av := List.finRange NBUF
    tab := []
    disk
    ios := 0
    uError := false }

end Code

section Effects

variable {d : Dsk} {p : Pool} {i j : Fin NBUF}

/-- Whether the next transfer of the buffer fails. -/
def failed (d : Dsk) (p : Pool) (i : Fin NBUF) : Bool :=
  decide (d.Holds (p.buf i).bBlkno) && d.fails p.ios (p.buf i).bBlkno

theorem brelse_eq (p : Pool) (i : Fin NBUF) :
    brelse p i =
      { p with
        buf := Function.update p.buf i
          { p.buf i with bDev := (p.buf i).bDev && !(p.buf i).error, busy := false, age := false }
        av := if (p.buf i).age then i :: p.av else p.av ++ [i] } :=
  rfl

theorem bdwrite_eq (p : Pool) (i : Fin NBUF) :
    bdwrite p i =
      { p with
        buf := Function.update p.buf i
          { p.buf i with
            bDev := (p.buf i).bDev && !(p.buf i).error, done := true, busy := false, age := false, delwri := true }
        av := if (p.buf i).age then i :: p.av else p.av ++ [i] } := by
  rw [bdwrite, brelse_eq]
  simp [Pool.modify]

/-- A block is read into its buffer. -/
theorem read_eq (d : Dsk) (p : Pool) (i : Fin NBUF) (herror : (p.buf i).error = false) :
    strategy d p i true false =
      { p with
        buf := Function.update p.buf i
          { p.buf i with
            bAddr := if d.Holds (p.buf i).bBlkno ∧ failed d p i = false then p.disk (p.buf i).bBlkno
              else (p.buf i).bAddr
            done := true, error := failed d p i }
        ios := if d.Holds (p.buf i).bBlkno then p.ios + 1 else p.ios } := by
  unfold strategy dskIo iodone failed
  by_cases hholds : d.Holds (p.buf i).bBlkno
  · cases hfails : d.fails p.ios (p.buf i).bBlkno <;> simp [hholds, hfails, Pool.modify, herror]
  · simp [hholds, Pool.modify, herror]

/-- A block is written and its buffer available. -/
theorem bwrite_eq (d : Dsk) (p : Pool) (i : Fin NBUF) (async : Bool) :
    bwrite d p i async =
      { buf := Function.update p.buf i
          { p.buf i with
            bDev := (p.buf i).bDev && !failed d p i, done := true, error := failed d p i, busy := false
            age := async && (p.buf i).delwri, delwri := false }
        av := p.av ++ [i]
        tab := p.tab
        disk := if d.Holds (p.buf i).bBlkno ∧ failed d p i = false then
            Function.update p.disk (p.buf i).bBlkno (p.buf i).bAddr
          else p.disk
        ios := if d.Holds (p.buf i).bBlkno then p.ios + 1 else p.ios
        uError := p.uError || failed d p i && !(async && (p.buf i).delwri) } := by
  unfold bwrite strategy dskIo iodone failed geterror
  by_cases hholds : d.Holds (p.buf i).bBlkno
  · cases hfails : d.fails p.ios (p.buf i).bBlkno <;> cases async <;> cases hdelwri : (p.buf i).delwri <;>
      simp [hholds, hfails, Pool.modify, brelse]
  · cases async <;> cases hdelwri : (p.buf i).delwri <;> simp [hholds, Pool.modify, brelse]

theorem buf_bwrite_self (d : Dsk) (p : Pool) (i : Fin NBUF) (async : Bool) :
    (bwrite d p i async).buf i =
      { p.buf i with
        bDev := (p.buf i).bDev && !failed d p i, done := true, error := failed d p i, busy := false
        age := async && (p.buf i).delwri, delwri := false } := by
  rw [bwrite_eq]
  exact Function.update_self ..

theorem buf_bwrite_of_ne (h : j ≠ i) (d : Dsk) (async : Bool) : (bwrite d p i async).buf j = p.buf j := by
  rw [bwrite_eq]
  exact Function.update_of_ne h ..

theorem buf_notavail_self (p : Pool) (i : Fin NBUF) : (notavail p i).buf i = { p.buf i with busy := true } :=
  Function.update_self ..

theorem buf_notavail_of_ne (h : j ≠ i) : (notavail p i).buf j = p.buf j :=
  Function.update_of_ne h ..

theorem buf_reassign_self (p : Pool) (i : Fin NBUF) (blkno : ℤ) :
    (reassign p i blkno).buf i = ⟨true, blkno, (p.buf i).bAddr, false, false, true, false, false⟩ :=
  Function.update_self ..

theorem buf_reassign_of_ne (h : j ≠ i) (blkno : ℤ) : (reassign p i blkno).buf j = p.buf j :=
  Function.update_of_ne h ..

theorem buf_discard_self (p : Pool) (i : Fin NBUF) :
    (discard p i).buf i = ⟨false, (p.buf i).bBlkno, (p.buf i).bAddr, false, false, true, false, false⟩ :=
  Function.update_self ..

theorem buf_discard_of_ne (h : j ≠ i) : (discard p i).buf j = p.buf j :=
  Function.update_of_ne h ..

end Effects

section Invariant

variable {d : Dsk} {p q : Pool} {i j : Fin NBUF} {bp : Buf} {mem mem' : ℤ → Buffer} {blkno : ℤ}

/-- A buffer is available unless it is busy, and no two buffers have one block. -/
structure Inv (p : Pool) : Prop where
  nodup : p.av.Nodup
  mem_av : ∀ i, i ∈ p.av ↔ (p.buf i).busy = false
  mem_tab : ∀ i, (p.buf i).bDev = true → i ∈ p.tab
  unique : ∀ i j, (p.buf i).bDev = true → (p.buf j).bDev = true → (p.buf i).bBlkno = (p.buf j).bBlkno → i = j
  delwri : ∀ i, (p.buf i).delwri = true → (p.buf i).bDev = true ∧ (p.buf i).done = true ∧ (p.buf i).error = false
  error : ∀ i, (p.buf i).error = true → (p.buf i).bDev = true → (p.buf i).busy = true

/-- The disk holds the block, and none of its transfers has failed. -/
def Trusted (d : Dsk) (p : Pool) (blkno : ℤ) : Prop := d.Holds blkno ∧ ∀ n < p.ios, d.fails n blkno = false

/-- The buffers and the disk together stand for `mem`. -/
structure Shows (d : Dsk) (mem : ℤ → Buffer) (p : Pool) : Prop where
  disk : ∀ b, Trusted d p b → (∀ i, (p.buf i).bDev = true → (p.buf i).bBlkno = b → (p.buf i).delwri = false) →
    p.disk b = mem b
  idle : ∀ i, (p.buf i).busy = false → (p.buf i).bDev = true → (p.buf i).done = true → Trusted d p (p.buf i).bBlkno →
    (p.buf i).bAddr = mem (p.buf i).bBlkno

theorem Trusted.of_le (h : Trusted d q blkno) (hle : p.ios ≤ q.ios) : Trusted d p blkno :=
  ⟨h.1, fun n hn ↦ h.2 n (hn.trans_le hle)⟩

theorem Shows.congr (h : Shows d mem p) (hmem : ∀ b, Trusted d p b → mem' b = mem b) : Shows d mem' p :=
  ⟨fun b hb hdelwri ↦ (h.disk b hb hdelwri).trans (hmem b hb).symm,
    fun i hbusy hdev hdone htrusted ↦ (h.idle i hbusy hdev hdone htrusted).trans (hmem _ htrusted).symm⟩

/-- One buffer changes. -/
theorem Inv.update (h : Inv p) (hbuf : q.buf = Function.update p.buf i bp) (hnodup : q.av.Nodup)
    (hav : ∀ j, j ∈ q.av ↔ if j = i then bp.busy = false else j ∈ p.av) (htab : ∀ j, j ≠ i → j ∈ p.tab → j ∈ q.tab)
    (hdev : bp.bDev = true → i ∈ q.tab ∧ ∀ j, j ≠ i → (p.buf j).bDev = true → (p.buf j).bBlkno ≠ bp.bBlkno)
    (hdelwri : bp.delwri = true → bp.bDev = true ∧ bp.done = true ∧ bp.error = false)
    (herror : bp.error = true → bp.bDev = true → bp.busy = true) : Inv q := by
  have hself : q.buf i = bp := by rw [hbuf, Function.update_self]
  have hother (j : Fin NBUF) (hj : j ≠ i) : q.buf j = p.buf j := by rw [hbuf, Function.update_of_ne hj]
  refine ⟨hnodup, fun j ↦ ?_, fun j hj ↦ ?_, fun j k hj hk heq ↦ ?_, fun j hj ↦ ?_, fun j hj hdev' ↦ ?_⟩
  · rw [hav j]
    by_cases hji : j = i
    · rw [if_pos hji, hji, hself]
    · rw [if_neg hji, hother j hji]
      exact h.mem_av j
  · by_cases hji : j = i
    · rw [hji, hself] at hj
      exact hji ▸ (hdev hj).1
    · rw [hother j hji] at hj
      exact htab j hji (h.mem_tab j hj)
  · by_cases hji : j = i
    · by_cases hki : k = i
      · exact hji.trans hki.symm
      · rw [hji, hself] at hj heq
        rw [hother k hki] at hk heq
        exact absurd heq.symm ((hdev hj).2 k hki hk)
    · rw [hother j hji] at hj heq
      by_cases hki : k = i
      · rw [hki, hself] at hk heq
        exact absurd heq ((hdev hk).2 j hji hj)
      · rw [hother k hki] at hk heq
        exact h.unique j k hj hk heq
  · by_cases hji : j = i
    · rw [hji, hself] at hj ⊢
      exact hdelwri hj
    · rw [hother j hji] at hj ⊢
      exact h.delwri j hj
  · by_cases hji : j = i
    · rw [hji, hself] at hj hdev' ⊢
      exact herror hj hdev'
    · rw [hother j hji] at hj hdev' ⊢
      exact h.error j hj hdev'

/-- One buffer changes and keeps its block, or loses it. -/
theorem Inv.keep (h : Inv p) (hbuf : q.buf = Function.update p.buf i bp) (htab : q.tab = p.tab) (hnodup : q.av.Nodup)
    (hav : ∀ j, j ∈ q.av ↔ if j = i then bp.busy = false else j ∈ p.av) (hdev : bp.bDev = true → (p.buf i).bDev = true)
    (hblkno : bp.bBlkno = (p.buf i).bBlkno)
    (hdelwri : bp.delwri = true → bp.bDev = true ∧ bp.done = true ∧ bp.error = false)
    (herror : bp.error = true → bp.bDev = true → bp.busy = true) : Inv q := by
  refine h.update hbuf hnodup hav (fun j _ hj ↦ htab ▸ hj) (fun hbp ↦ ?_) hdelwri herror
  rw [htab, hblkno]
  exact ⟨h.mem_tab i (hdev hbp), fun j hj hdev' heq ↦ hj (h.unique j i hdev' (hdev hbp) heq)⟩

theorem Inv.not_error (h : Inv p) (hidle : (p.buf i).busy = false) (hdev : (p.buf i).bDev = true) :
    (p.buf i).error = false := by
  by_contra herror
  have hbusy := h.error i (eq_true_of_ne_false herror) hdev
  rw [hidle] at hbusy
  exact Bool.false_ne_true hbusy

theorem Inv.not_mem (h : Inv p) (hbusy : (p.buf i).busy = true) : i ∉ p.av := by
  rw [h.mem_av, hbusy]
  decide

/-- A busy buffer becomes available, at the end or at the head of the list. -/
theorem Inv.back (h : Inv p) (hbusy : (p.buf i).busy = true) (age : Bool) :
    (if age then i :: p.av else p.av ++ [i]).Nodup ∧
      ∀ j, j ∈ (if age then i :: p.av else p.av ++ [i]) ↔ if j = i then false = false else j ∈ p.av := by
  have hmem := h.not_mem hbusy
  constructor
  · cases age
    · exact List.nodup_append'.mpr ⟨h.nodup, List.nodup_singleton i, List.disjoint_singleton.mpr hmem⟩
    · exact List.nodup_cons.mpr ⟨hmem, h.nodup⟩
  · intro j
    by_cases hji : j = i
    · rw [hji, if_pos rfl]
      cases age <;> simp
    · rw [if_neg hji]
      cases age <;> simp [hji]

theorem Inv.notavail (h : Inv p) (i : Fin NBUF) : Inv (notavail p i) := by
  refine h.keep rfl rfl (h.nodup.erase i) (fun j ↦ ?_) id rfl (h.delwri i) fun _ _ ↦ rfl
  rw [Bio.notavail, h.nodup.mem_erase_iff]
  by_cases hji : j = i <;> simp [hji]

theorem Inv.brelse (h : Inv p) (hbusy : (p.buf i).busy = true) : Inv (brelse p i) := by
  obtain ⟨hnodup, hav⟩ := h.back hbusy (p.buf i).age
  rw [brelse_eq]
  refine h.keep rfl rfl hnodup hav (fun hdev ↦ (Bool.and_eq_true_iff.mp hdev).1) rfl (fun hdelwri ↦ ?_) fun herror hdev ↦ ?_
  · obtain ⟨hdev, hdone, herror⟩ := h.delwri i hdelwri
    simp [hdev, hdone, herror]
  · simp [show (p.buf i).error = true from herror] at hdev

theorem Inv.bdwrite (h : Inv p) (hbusy : (p.buf i).busy = true) (hdev : (p.buf i).bDev = true)
    (herror : (p.buf i).error = false) : Inv (bdwrite p i) := by
  obtain ⟨hnodup, hav⟩ := h.back hbusy (p.buf i).age
  rw [bdwrite_eq]
  refine h.keep rfl rfl hnodup hav (fun _ ↦ hdev) rfl (fun _ ↦ ?_) fun herror' _ ↦ ?_
  · simp [hdev, herror]
  · rw [herror] at herror'
    exact absurd herror' Bool.false_ne_true

theorem Inv.bwrite (h : Inv p) (hbusy : (p.buf i).busy = true) (d : Dsk) (async : Bool) : Inv (bwrite d p i async) := by
  obtain ⟨hnodup, hav⟩ := h.back hbusy false
  rw [bwrite_eq]
  refine h.keep rfl rfl hnodup hav (fun hdev ↦ (Bool.and_eq_true_iff.mp hdev).1) rfl (fun hdelwri ↦ ?_) fun herror hdev ↦ ?_
  · exact absurd hdelwri Bool.false_ne_true
  · simp [show failed d p i = true from herror] at hdev

theorem Inv.read (h : Inv p) (hbusy : (p.buf i).busy = true) (hdone : (p.buf i).done = false)
    (herror : (p.buf i).error = false) (d : Dsk) : Inv (strategy d p i true false) := by
  rw [read_eq d p i herror]
  refine h.keep rfl rfl h.nodup (fun j ↦ ?_) id rfl (fun hdelwri ↦ ?_) fun _ _ ↦ hbusy
  · by_cases hji : j = i
    · rw [if_pos hji, hji]
      exact h.mem_av i
    · rw [if_neg hji]
  · rw [(h.delwri i hdelwri).2.1] at hdone
    exact absurd hdone Bool.false_ne_true.symm

theorem lookup_eq_none (h : Inv p) : lookup p blkno = none ↔ ∀ i, (p.buf i).bDev = true → (p.buf i).bBlkno ≠ blkno := by
  rw [lookup, List.find?_eq_none]
  constructor
  · intro hnone i hdev heq
    exact hnone i (h.mem_tab i hdev) (decide_eq_true ⟨heq, hdev⟩)
  · intro hnone i _ hfound
    obtain ⟨heq, hdev⟩ := of_decide_eq_true hfound
    exact hnone i hdev heq

theorem of_lookup (h : lookup p blkno = some i) : (p.buf i).bBlkno = blkno ∧ (p.buf i).bDev = true := by
  have hfound := List.find?_some h
  exact of_decide_eq_true hfound

theorem lookup_eq_some (h : Inv p) (hdev : (p.buf i).bDev = true) (hblkno : (p.buf i).bBlkno = blkno) :
    lookup p blkno = some i := by
  cases hlookup : lookup p blkno with
  | none => exact absurd hblkno ((lookup_eq_none h).mp hlookup i hdev)
  | some j =>
    obtain ⟨hj, hdevj⟩ := of_lookup hlookup
    rw [h.unique j i hdevj hdev (hj.trans hblkno.symm)]

theorem Inv.reassign (h : Inv p) (hbusy : (p.buf i).busy = true) (hlookup : lookup p blkno = none) :
    Inv (reassign p i blkno) := by
  refine h.update rfl h.nodup (fun j ↦ ?_) (fun j hj hmem ↦ ?_) (fun _ ↦ ⟨List.mem_cons_self, ?_⟩) (fun hdelwri ↦ ?_)
    fun _ _ ↦ rfl
  · by_cases hji : j = i
    · rw [if_pos hji, hji]
      exact iff_of_false (h.not_mem hbusy) Bool.false_ne_true.symm
    · rw [if_neg hji]
      exact Iff.rfl
  · exact List.mem_cons_of_mem _ ((List.mem_erase_of_ne hj).mpr hmem)
  · exact fun j _ hdev ↦ (lookup_eq_none h).mp hlookup j hdev
  · exact absurd hdelwri Bool.false_ne_true

theorem Inv.discard (h : Inv p) (hbusy : (p.buf i).busy = true) : Inv (discard p i) := by
  refine h.update rfl h.nodup (fun j ↦ ?_) (fun j hj hmem ↦ (List.mem_erase_of_ne hj).mpr hmem)
    (fun hdev ↦ absurd hdev Bool.false_ne_true) (fun hdelwri ↦ absurd hdelwri Bool.false_ne_true) fun _ _ ↦ rfl
  by_cases hji : j = i
  · rw [if_pos hji, hji]
    exact iff_of_false (h.not_mem hbusy) Bool.false_ne_true.symm
  · rw [if_neg hji]
    exact Iff.rfl

end Invariant

section Contents

variable {d : Dsk} {p q : Pool} {i j : Fin NBUF} {bp : Buf} {mem mem' : ℤ → Buffer} {blkno : ℤ}

/-- One buffer changes, and the disk only where it is written. -/
theorem Shows.update (h : Shows d mem p) (hbuf : q.buf = Function.update p.buf i bp) (hios : p.ios ≤ q.ios)
    (hdisk : ∀ b, Trusted d q b → (bp.bDev = true → bp.bBlkno = b → bp.delwri = false) →
      (∀ j, j ≠ i → (p.buf j).bDev = true → (p.buf j).bBlkno = b → (p.buf j).delwri = false) → q.disk b = mem' b)
    (hother : ∀ j, j ≠ i → (p.buf j).bDev = true → mem' (p.buf j).bBlkno = mem (p.buf j).bBlkno)
    (hidle : bp.busy = false → bp.bDev = true → bp.done = true → Trusted d q bp.bBlkno → bp.bAddr = mem' bp.bBlkno) :
    Shows d mem' q := by
  have hself : q.buf i = bp := by rw [hbuf, Function.update_self]
  have hsame (j : Fin NBUF) (hj : j ≠ i) : q.buf j = p.buf j := by rw [hbuf, Function.update_of_ne hj]
  refine ⟨fun b hb hdelwri ↦ hdisk b hb (fun hdev hblkno ↦ ?_) fun j hj hdev hblkno ↦ ?_, fun j ↦ ?_⟩
  · have hi := hdelwri i
    rw [hself] at hi
    exact hi hdev hblkno
  · have hother := hdelwri j
    rw [hsame j hj] at hother
    exact hother hdev hblkno
  · by_cases hji : j = i
    · rw [hji, hself]
      exact hidle
    · rw [hsame j hji]
      intro hbusy hdev hdone htrusted
      exact (h.idle j hbusy hdev hdone (htrusted.of_le hios)).trans (hother j hji hdev).symm

/-- One buffer changes, and nothing is written. -/
theorem Shows.keep (h : Shows d mem p) (hbuf : q.buf = Function.update p.buf i bp) (hios : p.ios ≤ q.ios)
    (hdisk : q.disk = p.disk)
    (hdelwri : ∀ b, Trusted d p b → (p.buf i).bDev = true → (p.buf i).bBlkno = b → (p.buf i).delwri = true →
      bp.bDev = true ∧ bp.bBlkno = b ∧ bp.delwri = true)
    (hidle : bp.busy = false → bp.bDev = true → bp.done = true → Trusted d q bp.bBlkno → bp.bAddr = mem bp.bBlkno) :
    Shows d mem q := by
  refine h.update hbuf hios (fun b hb hi hall ↦ ?_) (fun _ _ _ ↦ rfl) hidle
  rw [hdisk]
  refine h.disk b (hb.of_le hios) fun j hdev hblkno ↦ ?_
  by_cases hji : j = i
  · rw [hji] at hdev hblkno ⊢
    by_contra hne
    obtain ⟨hdev', hblkno', hdelwri'⟩ := hdelwri b (hb.of_le hios) hdev hblkno (eq_true_of_ne_false hne)
    rw [hi hdev' hblkno'] at hdelwri'
    exact Bool.false_ne_true hdelwri'
  · exact hall j hji hdev hblkno

theorem Shows.notavail (h : Shows d mem p) (i : Fin NBUF) : Shows d mem (notavail p i) :=
  h.keep rfl le_rfl rfl (fun _ _ hdev hblkno hdelwri ↦ ⟨hdev, hblkno, hdelwri⟩) fun hbusy ↦ absurd hbusy Bool.false_ne_true.symm

theorem Shows.brelse (h : Shows d mem p) (hinv : Inv p)
    (hsame : (p.buf i).bDev = true → (p.buf i).done = true → (p.buf i).error = false → Trusted d p (p.buf i).bBlkno →
      (p.buf i).bAddr = mem (p.buf i).bBlkno) : Shows d mem (brelse p i) := by
  rw [brelse_eq]
  refine h.keep rfl le_rfl rfl (fun b _ hdev hblkno hdelwri ↦ ⟨?_, hblkno, hdelwri⟩) fun _ hdev hdone htrusted ↦ ?_
  · simp [hdev, (hinv.delwri i hdelwri).2.2]
  · obtain ⟨hdev', herror⟩ := Bool.and_eq_true_iff.mp hdev
    exact hsame hdev' hdone (by simpa using herror) htrusted

/-- No other buffer has the block. -/
theorem Inv.update_other (h : Inv p) (hdev : (p.buf i).bDev = true) (hj : j ≠ i) (hdevj : (p.buf j).bDev = true)
    (c : Buffer) : Function.update mem (p.buf i).bBlkno c (p.buf j).bBlkno = mem (p.buf j).bBlkno :=
  Function.update_of_ne (fun heq ↦ hj (h.unique j i hdevj hdev heq)) ..

theorem Shows.bdwrite (h : Shows d mem p) (hinv : Inv p) (hdev : (p.buf i).bDev = true)
    (herror : (p.buf i).error = false) :
    Shows d (Function.update mem (p.buf i).bBlkno (p.buf i).bAddr) (bdwrite p i) := by
  rw [bdwrite_eq]
  refine h.update rfl le_rfl (fun b hb hi hall ↦ ?_) (fun j hj hdevj ↦ hinv.update_other hdev hj hdevj _) fun _ _ _ _ ↦ ?_
  · have hne : b ≠ (p.buf i).bBlkno := by
      intro heq
      have hdelwri := hi (by simp [hdev, herror]) heq.symm
      exact Bool.false_ne_true.symm hdelwri
    rw [Function.update_of_ne hne]
    refine h.disk b hb fun j hdevj hblkno ↦ ?_
    by_cases hji : j = i
    · rw [hji] at hblkno
      exact absurd hblkno.symm hne
    · exact hall j hji hdevj hblkno
  · exact (Function.update_self (p.buf i).bBlkno (p.buf i).bAddr mem).symm

theorem ios_le (d : Dsk) (p : Pool) (i : Fin NBUF) :
    p.ios ≤ if d.Holds (p.buf i).bBlkno then p.ios + 1 else p.ios := by
  split <;> omega

/-- A trusted block is transferred. -/
theorem not_failed (h : Trusted d q (p.buf i).bBlkno)
    (hios : q.ios = if d.Holds (p.buf i).bBlkno then p.ios + 1 else p.ios) : failed d p i = false := by
  rw [if_pos h.1] at hios
  rw [failed, h.2 p.ios (by omega), Bool.and_false]

theorem Shows.bwrite (h : Shows d mem p) (hinv : Inv p) (hdev : (p.buf i).bDev = true) (async : Bool) :
    Shows d (Function.update mem (p.buf i).bBlkno (p.buf i).bAddr) (bwrite d p i async) := by
  rw [bwrite_eq]
  refine h.update rfl (ios_le d p i) (fun b hb _ hall ↦ ?_) (fun j hj hdevj ↦ hinv.update_other hdev hj hdevj _)
    fun _ _ _ _ ↦ ?_
  · by_cases hb' : b = (p.buf i).bBlkno
    · subst hb'
      have hgood := not_failed hb rfl
      rw [Function.update_self]
      have hwritten : (if d.Holds (p.buf i).bBlkno ∧ failed d p i = false then
          Function.update p.disk (p.buf i).bBlkno (p.buf i).bAddr else p.disk) (p.buf i).bBlkno = (p.buf i).bAddr := by
        rw [if_pos ⟨hb.1, hgood⟩, Function.update_self]
      exact hwritten
    · have hsame : (if d.Holds (p.buf i).bBlkno ∧ failed d p i = false then
          Function.update p.disk (p.buf i).bBlkno (p.buf i).bAddr else p.disk) b = p.disk b := by
        split
        · exact Function.update_of_ne hb' ..
        · rfl
      rw [Function.update_of_ne hb']
      refine hsame.trans (h.disk b (hb.of_le (ios_le d p i)) fun j hdevj hblkno ↦ ?_)
      by_cases hji : j = i
      · rw [hji] at hblkno
        exact absurd hblkno.symm hb'
      · exact hall j hji hdevj hblkno
  · exact (Function.update_self (p.buf i).bBlkno (p.buf i).bAddr mem).symm

/-- A buffer with nothing of its own is read. -/
theorem Shows.read (h : Shows d mem p) (hinv : Inv p) (hbusy : (p.buf i).busy = true) (hdone : (p.buf i).done = false)
    (herror : (p.buf i).error = false) : Shows d mem (strategy d p i true false) := by
  rw [read_eq d p i herror]
  refine h.keep rfl (ios_le d p i) rfl (fun b _ _ _ hdelwri ↦ ?_) fun hbusy' ↦ ?_
  · rw [(hinv.delwri i hdelwri).2.1] at hdone
    exact absurd hdone Bool.false_ne_true.symm
  · rw [hbusy] at hbusy'
    exact absurd hbusy' Bool.false_ne_true.symm

theorem Shows.reassign (h : Shows d mem p) (hdelwri : (p.buf i).delwri = false) (blkno : ℤ) :
    Shows d mem (reassign p i blkno) := by
  refine h.keep rfl le_rfl rfl (fun b _ _ _ hdelwri' ↦ ?_) fun hbusy ↦ absurd hbusy Bool.false_ne_true.symm
  rw [hdelwri] at hdelwri'
  exact absurd hdelwri' Bool.false_ne_true

theorem Shows.discard (h : Shows d mem p) (hdelwri : (p.buf i).delwri = false) : Shows d mem (discard p i) := by
  refine h.keep rfl le_rfl rfl (fun b _ _ _ hdelwri' ↦ ?_) fun hbusy ↦ absurd hbusy Bool.false_ne_true.symm
  rw [hdelwri] at hdelwri'
  exact absurd hdelwri' Bool.false_ne_true

end Contents

end S8000.Filsys.Bio
