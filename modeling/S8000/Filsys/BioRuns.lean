import S8000.Filsys.Bio
import Mathlib.Data.Finset.Card

/-! The loops of the cache, and its use by anything that follows the rules for busy buffers. -/

namespace S8000.Filsys.Bio

open Foundation

section Loops

variable {d : Dsk} {mem : ℤ → Buffer} {p q r : Pool} {i j k : Fin NBUF} {blkno rablkno : ℤ} {fuel : ℕ}

/-- Nobody notices the change from `p` to `q`. -/
structure Kept (d : Dsk) (mem : ℤ → Buffer) (p q : Pool) : Prop where
  inv : Inv q
  shows : Shows d mem q
  busy : ∀ j, (q.buf j).busy = (p.buf j).busy
  held : ∀ j, (p.buf j).busy = true → q.buf j = p.buf j
  outside : ∀ b, ¬ d.Holds b → q.disk b = p.disk b
  ios : p.ios ≤ q.ios

/-- A buffer becomes busy. -/
structure Taken (d : Dsk) (mem : ℤ → Buffer) (p q : Pool) (i : Fin NBUF) : Prop where
  inv : Inv q
  shows : Shows d mem q
  fresh : (p.buf i).busy = false
  busy : (q.buf i).busy = true
  others : ∀ j, j ≠ i → (q.buf j).busy = (p.buf j).busy
  held : ∀ j, (p.buf j).busy = true → q.buf j = p.buf j
  outside : ∀ b, ¬ d.Holds b → q.disk b = p.disk b
  ios : p.ios ≤ q.ios

/-- The buffer of a block. -/
structure Holding (d : Dsk) (mem : ℤ → Buffer) (q : Pool) (i : Fin NBUF) (blkno : ℤ) : Prop where
  dev : (q.buf i).bDev = true
  block : (q.buf i).bBlkno = blkno
  contents : (q.buf i).done = true → Trusted d q blkno → (q.buf i).error = false ∧ (q.buf i).bAddr = mem blkno

theorem Kept.refl (hinv : Inv p) (hshows : Shows d mem p) : Kept d mem p p :=
  ⟨hinv, hshows, fun _ ↦ rfl, fun _ _ ↦ rfl, fun _ _ ↦ rfl, le_rfl⟩

theorem Kept.trans (h : Kept d mem p q) (h' : Kept d mem q r) : Kept d mem p r :=
  ⟨h'.inv, h'.shows, fun j ↦ (h'.busy j).trans (h.busy j),
    fun j hj ↦ (h'.held j ((h.busy j).trans hj)).trans (h.held j hj),
    fun b hb ↦ (h'.outside b hb).trans (h.outside b hb), h.ios.trans h'.ios⟩

theorem Kept.taken (h : Kept d mem p q) (h' : Taken d mem q r i) : Taken d mem p r i :=
  ⟨h'.inv, h'.shows, (h.busy i).symm.trans h'.fresh, h'.busy, fun j hj ↦ (h'.others j hj).trans (h.busy j),
    fun j hj ↦ (h'.held j ((h.busy j).trans hj)).trans (h.held j hj),
    fun b hb ↦ (h'.outside b hb).trans (h.outside b hb), h.ios.trans h'.ios⟩

theorem Taken.kept (h : Taken d mem p q i) (h' : Kept d mem q r) : Taken d mem p r i := by
  refine ⟨h'.inv, h'.shows, h.fresh, (h'.busy i).trans h.busy, fun j hj ↦ (h'.busy j).trans (h.others j hj), fun j hj ↦ ?_,
    fun b hb ↦ (h'.outside b hb).trans (h.outside b hb), h.ios.trans h'.ios⟩
  have hj' := h.held j hj
  exact (h'.held j (by rw [hj', hj])).trans hj'

theorem Holding.kept (h : Holding d mem q i blkno) (hbusy : (q.buf i).busy = true) (h' : Kept d mem q r) :
    Holding d mem r i blkno := by
  have hsame := h'.held i hbusy
  refine ⟨by rw [hsame, h.dev], by rw [hsame, h.block], ?_⟩
  rw [hsame]
  exact fun hdone htrusted ↦ h.contents hdone (htrusted.of_le h'.ios)

/-- What one of the loops does to a buffer that is given up: it is written if it must. -/
structure Evicted (p q : Pool) (k : Fin NBUF) : Prop where
  others : ∀ j, j ≠ k → q.buf j = p.buf j
  delwri : (q.buf k).delwri = false
  block : (q.buf k).bBlkno = (p.buf k).bBlkno
  dev : (q.buf k).bDev = true → (p.buf k).bDev = true

theorem evicted (d : Dsk) (p : Pool) (k : Fin NBUF) : Evicted p (bwrite d (notavail p k) k true) k := by
  have hself := buf_bwrite_self d (notavail p k) k true
  rw [buf_notavail_self] at hself
  refine ⟨fun j hj ↦ (buf_bwrite_of_ne hj d true).trans (buf_notavail_of_ne hj), ?_, ?_, fun hdev ↦ ?_⟩
  · rw [hself]
  · rw [hself]
  · rw [hself] at hdev
    exact (Bool.and_eq_true_iff.mp hdev).1

theorem ios_le_bwrite (d : Dsk) (p : Pool) (i : Fin NBUF) (async : Bool) : p.ios ≤ (bwrite d p i async).ios := by
  rw [bwrite_eq]
  exact ios_le d p i

theorem bwrite_outside (d : Dsk) (p : Pool) (i : Fin NBUF) (async : Bool) {b : ℤ} (hb : ¬ d.Holds b) :
    (bwrite d p i async).disk b = p.disk b := by
  rw [bwrite_eq]
  dsimp only
  split
  · rename_i hwritten
    refine Function.update_of_ne ?_ ..
    rintro rfl
    exact hb hwritten.1
  · rfl

theorem Kept.evict (hinv : Inv p) (hshows : Shows d mem p) (hidle : (p.buf k).busy = false)
    (hdelwri : (p.buf k).delwri = true) : Kept d mem p (bwrite d (notavail p k) k true) := by
  obtain ⟨hdev, hdone, -⟩ := hinv.delwri k hdelwri
  have hself := buf_notavail_self p k
  have hall := (hshows.notavail k).bwrite (hinv.notavail k) (by rw [hself, hdev]) true
  have hios : p.ios ≤ (bwrite d (notavail p k) k true).ios := ios_le_bwrite d (notavail p k) k true
  have hother := (evicted d p k).others
  refine ⟨(hinv.notavail k).bwrite (by rw [hself]) d true, hall.congr fun b hb ↦ ?_, fun j ↦ ?_, fun j hj ↦ ?_,
    fun b hb ↦ bwrite_outside d (notavail p k) k true hb, hios⟩
  · rw [hself]
    by_cases hb' : b = (p.buf k).bBlkno
    · subst hb'
      rw [Function.update_self]
      exact (hshows.idle k hidle hdev hdone (hb.of_le hios)).symm
    · rw [Function.update_of_ne hb']
  · by_cases hj : j = k
    · rw [hj, buf_bwrite_self, hidle]
    · rw [hother j hj]
  · refine hother j ?_
    rintro rfl
    rw [hidle] at hj
    exact Bool.false_ne_true hj

theorem found (hinv : Inv p) (hshows : Shows d mem p) (hlookup : lookup p blkno = some i)
    (hidle : (p.buf i).busy = false) : Taken d mem p (notavail p i) i ∧ Holding d mem (notavail p i) i blkno := by
  obtain ⟨hblkno, hdev⟩ := of_lookup hlookup
  have hself := buf_notavail_self p i
  have hother (j : Fin NBUF) (hj : j ≠ i) : (notavail p i).buf j = p.buf j := buf_notavail_of_ne hj
  constructor
  · refine ⟨hinv.notavail i, hshows.notavail i, hidle, by rw [hself], fun j hj ↦ by rw [hother j hj], fun j hj ↦ ?_,
      fun _ _ ↦ rfl, le_rfl⟩
    refine hother j ?_
    rintro rfl
    rw [hidle] at hj
    exact Bool.false_ne_true hj
  · refine ⟨by rw [hself, hdev], by rw [hself, hblkno], ?_⟩
    rw [hself]
    intro hdone htrusted
    refine ⟨hinv.not_error hidle hdev, ?_⟩
    rw [← hblkno]
    exact hshows.idle i hidle hdev hdone (hblkno.symm ▸ htrusted)

/-- A buffer that is given up and need not be written. -/
theorem taken_of_notavail (hidle : (p.buf i).busy = false) (hinv' : Inv q)
    (hshows' : Shows d mem q) (hbusy : (q.buf i).busy = true)
    (hother : ∀ j, j ≠ i → q.buf j = (notavail p i).buf j) (hdisk : q.disk = p.disk) (hios : q.ios = p.ios) :
    Taken d mem p q i := by
  have hsame (j : Fin NBUF) (hj : j ≠ i) : q.buf j = p.buf j := (hother j hj).trans (buf_notavail_of_ne hj)
  refine ⟨hinv', hshows', hidle, hbusy, fun j hj ↦ by rw [hsame j hj], fun j hj ↦ ?_, fun b _ ↦ by rw [hdisk], hios.ge⟩
  refine hsame j ?_
  rintro rfl
  rw [hidle] at hj
  exact Bool.false_ne_true hj

theorem reassigned (hinv : Inv p) (hshows : Shows d mem p) (hlookup : lookup p blkno = none)
    (hidle : (p.buf i).busy = false) (hdelwri : (p.buf i).delwri = false) :
    Taken d mem p (reassign (notavail p i) i blkno) i ∧ Holding d mem (reassign (notavail p i) i blkno) i blkno := by
  have hself := buf_notavail_self p i
  have hnew := buf_reassign_self (notavail p i) i blkno
  have hlookup' : lookup (notavail p i) blkno = none := by
    rw [lookup_eq_none (hinv.notavail i)]
    intro j hdev
    have hsame : ((notavail p i).buf j).bDev = (p.buf j).bDev ∧ ((notavail p i).buf j).bBlkno = (p.buf j).bBlkno := by
      by_cases hj : j = i
      · rw [hj, hself]
        exact ⟨rfl, rfl⟩
      · rw [buf_notavail_of_ne hj]
        exact ⟨rfl, rfl⟩
    rw [hsame.2]
    exact (lookup_eq_none hinv).mp hlookup j (hsame.1.symm.trans hdev)
  constructor
  · exact taken_of_notavail hidle ((hinv.notavail i).reassign (by rw [hself]) hlookup')
      ((hshows.notavail i).reassign (by rw [hself, hdelwri]) blkno) (by rw [hnew])
      (fun j hj ↦ buf_reassign_of_ne hj blkno) rfl rfl
  · refine ⟨by rw [hnew], by rw [hnew], ?_⟩
    rw [hnew]
    exact fun hdone ↦ absurd hdone Bool.false_ne_true

/-- What `getblk` gives, by induction on its rounds. -/
theorem getblkLoop_spec (hinv : Inv p) (hshows : Shows d mem p) (h : getblkLoop d blkno fuel p = some (q, i)) :
    Taken d mem p q i ∧ Holding d mem q i blkno ∧ (q.buf i).error = false := by
  induction fuel generalizing p with
  | zero => exact absurd h.symm (Option.some_ne_none _)
  | succ fuel ih =>
    rw [getblkLoop] at h
    cases hlookup : lookup p blkno with
    | some k =>
      rw [hlookup] at h
      dsimp only at h
      cases hbusy : (p.buf k).busy with
      | true =>
        rw [hbusy, if_pos rfl] at h
        exact ih hinv hshows h
      | false =>
        rw [hbusy, if_neg Bool.false_ne_true] at h
        obtain ⟨rfl, rfl⟩ := Prod.mk.inj (Option.some.inj h)
        obtain ⟨htaken, hholding⟩ := found hinv hshows hlookup hbusy
        refine ⟨htaken, hholding, ?_⟩
        rw [buf_notavail_self]
        exact hinv.not_error hbusy (of_lookup hlookup).2
    | none =>
      rw [hlookup] at h
      dsimp only at h
      cases hav : p.av with
      | nil =>
        rw [hav] at h
        exact ih hinv hshows h
      | cons k rest =>
        rw [hav] at h
        dsimp only at h
        have hidle : (p.buf k).busy = false := (hinv.mem_av k).mp (hav ▸ List.mem_cons_self)
        rw [buf_notavail_self] at h
        dsimp only at h
        cases hdelwri : (p.buf k).delwri with
        | true =>
          rw [hdelwri, if_pos rfl] at h
          have hkept := Kept.evict hinv hshows hidle hdelwri
          obtain ⟨htaken, hrest⟩ := ih hkept.inv hkept.shows h
          exact ⟨hkept.taken htaken, hrest⟩
        | false =>
          rw [hdelwri, if_neg Bool.false_ne_true] at h
          obtain ⟨rfl, rfl⟩ := Prod.mk.inj (Option.some.inj h)
          obtain ⟨htaken, hholding⟩ := reassigned hinv hshows hlookup hidle hdelwri
          refine ⟨htaken, hholding, ?_⟩
          rw [buf_reassign_self]

/-- What `geteblk` gives, likewise. -/
theorem geteblkLoop_spec (hinv : Inv p) (hshows : Shows d mem p) (h : geteblkLoop d fuel p = some (q, i)) :
    Taken d mem p q i ∧ (q.buf i).bDev = false := by
  induction fuel generalizing p with
  | zero => exact absurd h.symm (Option.some_ne_none _)
  | succ fuel ih =>
    rw [geteblkLoop] at h
    cases hav : p.av with
    | nil =>
      rw [hav] at h
      exact ih hinv hshows h
    | cons k rest =>
      rw [hav] at h
      dsimp only at h
      have hidle : (p.buf k).busy = false := (hinv.mem_av k).mp (hav ▸ List.mem_cons_self)
      rw [buf_notavail_self] at h
      dsimp only at h
      cases hdelwri : (p.buf k).delwri with
      | true =>
        rw [hdelwri, if_pos rfl] at h
        have hkept := Kept.evict hinv hshows hidle hdelwri
        obtain ⟨htaken, hdev⟩ := ih hkept.inv hkept.shows h
        exact ⟨hkept.taken htaken, hdev⟩
      | false =>
        rw [hdelwri, if_neg Bool.false_ne_true] at h
        obtain ⟨rfl, rfl⟩ := Prod.mk.inj (Option.some.inj h)
        have hinv' := (hinv.notavail k).discard (by rw [buf_notavail_self])
        have hshows' := (hshows.notavail k).discard (by rw [buf_notavail_self, hdelwri])
        have hself := buf_discard_self (notavail p k) k
        refine ⟨taken_of_notavail hidle hinv' hshows' (by rw [hself]) (fun j hj ↦ buf_discard_of_ne hj) rfl
          rfl, ?_⟩
        rw [hself]

theorem geterror_eq (p : Pool) (i : Fin NBUF) : geterror p i = { p with uError := p.uError || (p.buf i).error } := by
  unfold geterror
  cases h : (p.buf i).error <;> simp

theorem Kept.geterror (hinv : Inv p) (hshows : Shows d mem p) (i : Fin NBUF) : Kept d mem p (geterror p i) := by
  rw [geterror_eq]
  exact ⟨⟨hinv.nodup, hinv.mem_av, hinv.mem_tab, hinv.unique, hinv.delwri, hinv.error⟩, ⟨hshows.disk, hshows.idle⟩,
    fun _ ↦ rfl, fun _ _ ↦ rfl, fun _ _ ↦ rfl, le_rfl⟩

theorem buf_geterror (p : Pool) (i : Fin NBUF) : (geterror p i).buf = p.buf := by
  rw [geterror_eq]

/-- A block is read into a buffer that is new to it. -/
theorem Taken.read (h : Taken d mem p q i) (hholding : Holding d mem q i blkno) (herror : (q.buf i).error = false)
    (hdone : (q.buf i).done = false) :
    Taken d mem p (strategy d q i true false) i ∧ Holding d mem (strategy d q i true false) i blkno ∧
      ((strategy d q i true false).buf i).done = true := by
  have hinv := h.inv.read h.busy hdone herror d
  have hshows := h.shows.read h.inv h.busy hdone herror
  have hios := ios_le d q i
  have heq := read_eq d q i herror
  generalize strategy d q i true false = r at hinv hshows heq ⊢
  have hself := congrFun (congrArg Pool.buf heq) i
  have hother (j : Fin NBUF) (hj : j ≠ i) : r.buf j = q.buf j := by
    rw [heq]
    exact Function.update_of_ne hj ..
  have hios' : r.ios = if d.Holds (q.buf i).bBlkno then q.ios + 1 else q.ios := by rw [heq]
  dsimp only at hself
  rw [Function.update_self] at hself
  have hdisk : r.disk = q.disk := by rw [heq]
  refine ⟨⟨hinv, hshows, h.fresh, by rw [hself, h.busy], fun j hj ↦ by rw [hother j hj, h.others j hj], fun j hj ↦ ?_,
    fun b hb ↦ by rw [hdisk, h.outside b hb], ?_⟩,
    ⟨by rw [hself, hholding.dev], by rw [hself, hholding.block], fun _ htrusted ↦ ?_⟩, by rw [hself]⟩
  · have hji : j ≠ i := by
      rintro rfl
      rw [h.fresh] at hj
      exact Bool.false_ne_true hj
    rw [hother j hji, h.held j hj]
  · rw [hios']
    exact h.ios.trans hios
  · have hgood : failed d q i = false := not_failed (hholding.block.symm ▸ htrusted) hios'
    have htrusted' : Trusted d q blkno := htrusted.of_le (hios'.symm ▸ hios)
    rw [hself]
    refine ⟨hgood, ?_⟩
    dsimp only
    rw [hholding.block, if_pos ⟨htrusted.1, hgood⟩]
    refine h.shows.disk blkno htrusted' fun j hdev hblkno ↦ ?_
    have hji := h.inv.unique j i hdev hholding.dev (hblkno.trans hholding.block.symm)
    rw [hji]
    by_contra hdelwri
    rw [(h.inv.delwri i (eq_true_of_ne_false hdelwri)).2.1] at hdone
    exact Bool.false_ne_true hdone.symm

/-- What `bread` gives: the contents of the block, or an error. -/
theorem bread_spec (hinv : Inv p) (hshows : Shows d mem p) (h : bread d p blkno = some (q, i)) :
    Taken d mem p q i ∧ Holding d mem q i blkno ∧ (q.buf i).done = true := by
  obtain ⟨⟨r, k⟩, hgetblk, heq⟩ := Option.map_eq_some_iff.mp h
  obtain ⟨htaken, hholding, herror⟩ := getblkLoop_spec hinv hshows hgetblk
  dsimp only at heq
  cases hdone : (r.buf k).done with
  | true =>
    rw [hdone, if_pos rfl] at heq
    obtain ⟨rfl, rfl⟩ := Prod.mk.inj heq
    exact ⟨htaken, hholding, hdone⟩
  | false =>
    rw [hdone, if_neg Bool.false_ne_true] at heq
    obtain ⟨rfl, rfl⟩ := Prod.mk.inj heq
    obtain ⟨htaken', hholding', hdone'⟩ := htaken.read hholding herror hdone
    have hkept := Kept.geterror htaken'.inv htaken'.shows k
    exact ⟨htaken'.kept hkept, hholding'.kept htaken'.busy hkept, by rw [buf_geterror, hdone']⟩

/-- A buffer that was taken and is released with the contents of its block. -/
theorem Taken.brelse (h : Taken d mem p q i) (hholding : Holding d mem q i blkno) : Kept d mem p (brelse q i) := by
  have hother (j : Fin NBUF) (hj : j ≠ i) : (Bio.brelse q i).buf j = q.buf j := Function.update_of_ne hj ..
  have hself : ((Bio.brelse q i).buf i).busy = false := by
    rw [brelse_eq]
    dsimp only
    rw [Function.update_self]
  have hblock := hholding.block
  refine ⟨h.inv.brelse h.busy, h.shows.brelse h.inv fun _ hdone _ htrusted ↦ ?_, fun j ↦ ?_, fun j hj ↦ ?_, h.outside,
    h.ios⟩
  · rw [hblock] at htrusted ⊢
    exact (hholding.contents hdone htrusted).2
  · by_cases hj : j = i
    · rw [hj, hself, h.fresh]
    · rw [hother j hj, h.others j hj]
  · have hji : j ≠ i := by
      rintro rfl
      rw [h.fresh] at hj
      exact Bool.false_ne_true hj
    rw [hother j hji, h.held j hj]

theorem readAhead_spec (hinv : Inv p) (hshows : Shows d mem p) (h : readAhead d p rablkno = some q) : Kept d mem p q := by
  unfold readAhead at h
  split at h
  · obtain ⟨⟨r, k⟩, hgetblk, heq⟩ := Option.map_eq_some_iff.mp h
    obtain ⟨htaken, hholding, herror⟩ := getblkLoop_spec hinv hshows hgetblk
    dsimp only at heq
    cases hdone : (r.buf k).done with
    | true =>
      rw [hdone, if_pos rfl] at heq
      exact heq ▸ htaken.brelse hholding
    | false =>
      rw [hdone, if_neg Bool.false_ne_true] at heq
      obtain ⟨htaken', hholding', -⟩ := htaken.read hholding herror hdone
      -- a transfer that nobody waits for releases its buffer
      have hasync : strategy d r k true true = Bio.brelse (strategy d r k true false) k := rfl
      rw [← heq, hasync]
      exact htaken'.brelse hholding'
  · obtain rfl := Option.some.inj h
    exact .refl hinv hshows

/-- What `breada` gives is what `bread` gives. -/
theorem breada_spec (hinv : Inv p) (hshows : Shows d mem p) (h : breada d p blkno rablkno = some (q, i)) :
    Taken d mem p q i ∧ Holding d mem q i blkno ∧ (q.buf i).done = true := by
  unfold breada at h
  split at h
  · obtain ⟨r, hahead, hread⟩ := Option.bind_eq_some_iff.mp h
    have hkept := readAhead_spec hinv hshows hahead
    obtain ⟨htaken, hrest⟩ := bread_spec hkept.inv hkept.shows hread
    exact ⟨hkept.taken htaken, hrest⟩
  · obtain ⟨⟨r, k⟩, hgetblk, hrest⟩ := Option.bind_eq_some_iff.mp h
    obtain ⟨u, hahead, heq⟩ := Option.map_eq_some_iff.mp hrest
    obtain ⟨rfl, rfl⟩ := Prod.mk.inj heq
    obtain ⟨htaken, hholding, herror⟩ := getblkLoop_spec hinv hshows hgetblk
    have hread : ∃ w, (if (r.buf k).done then r else strategy d r k true false) = w ∧ Taken d mem p w k ∧
        Holding d mem w k blkno ∧ (w.buf k).done = true := by
      cases hdone : (r.buf k).done with
      | true => exact ⟨r, rfl, htaken, hholding, hdone⟩
      | false => exact ⟨_, rfl, htaken.read hholding herror hdone⟩
    obtain ⟨w, hw, htaken', hholding', hdone'⟩ := hread
    rw [hw] at hahead
    have hkept := (readAhead_spec htaken'.inv htaken'.shows hahead)
    have hkept := hkept.trans (Kept.geterror hkept.inv hkept.shows k)
    refine ⟨htaken'.kept hkept, hholding'.kept htaken'.busy hkept, ?_⟩
    rw [hkept.held k htaken'.busy, hdone']

end Loops

section Rounds

variable {d : Dsk} {mem : ℤ → Buffer} {p q : Pool} {i k : Fin NBUF} {blkno : ℤ} {fuel : ℕ}

/-- The buffers that a loop may have to write. -/
def due (p : Pool) : Finset (Fin NBUF) := Finset.univ.filter fun i ↦ (p.buf i).busy = false ∧ (p.buf i).delwri = true

theorem card_due_le (p : Pool) : (due p).card ≤ NBUF :=
  (Finset.card_le_univ _).trans (Fintype.card_fin NBUF).le

theorem Evicted.due_lt (hevicted : Evicted p q k) (hidle : (p.buf k).busy = false)
    (hdelwri : (p.buf k).delwri = true) : (due q).card < (due p).card := by
  refine Finset.card_lt_card (Finset.ssubset_iff_of_subset (fun j hj ↦ ?_) |>.mpr ⟨k, ?_, fun hk ↦ ?_⟩)
  · obtain ⟨hbusy, hdue⟩ := (Finset.mem_filter.mp hj).2
    have hjk : j ≠ k := by
      rintro rfl
      rw [hevicted.delwri] at hdue
      exact Bool.false_ne_true hdue
    rw [hevicted.others j hjk] at hbusy hdue
    exact Finset.mem_filter.mpr ⟨Finset.mem_univ j, hbusy, hdue⟩
  · exact Finset.mem_filter.mpr ⟨Finset.mem_univ k, hidle, hdelwri⟩
  · have hdue := (Finset.mem_filter.mp hk).2.2
    rw [hevicted.delwri] at hdue
    exact Bool.false_ne_true hdue

theorem bflushLoop_spec (hinv : Inv p) (hshows : Shows d mem p) : Kept d mem p (bflushLoop d fuel p) := by
  induction fuel generalizing p with
  | zero => exact .refl hinv hshows
  | succ fuel ih =>
    rw [bflushLoop]
    cases hfind : p.av.find? fun i ↦ (p.buf i).delwri with
    | none => exact .refl hinv hshows
    | some k =>
      have hidle := (hinv.mem_av k).mp (List.mem_of_find?_eq_some hfind)
      have hdelwri := List.find?_some hfind
      have hkept := Kept.evict hinv hshows hidle hdelwri
      exact hkept.trans (ih hkept.inv hkept.shows)

theorem due_bflushLoop (hinv : Inv p) (hshows : Shows d mem p) (hfuel : (due p).card ≤ fuel) :
    due (bflushLoop d fuel p) = ∅ := by
  induction fuel generalizing p with
  | zero => exact Finset.card_eq_zero.mp (Nat.le_zero.mp hfuel)
  | succ fuel ih =>
    rw [bflushLoop]
    cases hfind : p.av.find? fun i ↦ (p.buf i).delwri with
    | none =>
      refine Finset.eq_empty_iff_forall_notMem.mpr fun k hk ↦ ?_
      obtain ⟨hidle, hdelwri⟩ := (Finset.mem_filter.mp hk).2
      exact List.find?_eq_none.mp hfind k ((hinv.mem_av k).mpr hidle) hdelwri
    | some k =>
      have hidle := (hinv.mem_av k).mp (List.mem_of_find?_eq_some hfind)
      have hdelwri := List.find?_some hfind
      have hkept := Kept.evict hinv hshows hidle hdelwri
      have hlt := (evicted d p k).due_lt hidle hdelwri
      exact ih hkept.inv hkept.shows (by omega)

/-- What stops `getblk` for ever: the buffer of the block is busy, or all are. -/
def Stuck (p : Pool) (blkno : ℤ) : Prop :=
  (∃ i, (p.buf i).bDev = true ∧ (p.buf i).bBlkno = blkno ∧ (p.buf i).busy = true) ∨ ∀ i, (p.buf i).busy = true

theorem getblkLoop_of_stuck (hinv : Inv p) (hstuck : Stuck p blkno) (fuel : ℕ) : getblkLoop d blkno fuel p = none := by
  induction fuel with
  | zero => rfl
  | succ fuel ih =>
    rw [getblkLoop]
    cases hlookup : lookup p blkno with
    | some k =>
      have hbusy : (p.buf k).busy = true := by
        rcases hstuck with ⟨i, hdev, hblkno, hbusy⟩ | hall
        · rw [lookup_eq_some hinv hdev hblkno] at hlookup
          exact Option.some.inj hlookup ▸ hbusy
        · exact hall k
      dsimp only
      rw [if_pos hbusy, ih]
    | none =>
      have hall : ∀ i, (p.buf i).busy = true := by
        rcases hstuck with ⟨i, hdev, hblkno, -⟩ | hall
        · exact absurd hblkno ((lookup_eq_none hinv).mp hlookup i hdev)
        · exact hall
      have hav : p.av = [] := by
        refine List.eq_nil_iff_forall_not_mem.mpr fun i ↦ hinv.not_mem (hall i)
      rw [hav]
      exact ih

/-- A round for each buffer that is written, and one more. -/
theorem getblkLoop_of_not_stuck (hinv : Inv p) (hshows : Shows d mem p) (hstuck : ¬ Stuck p blkno)
    (hfuel : (due p).card < fuel) : ∃ r, getblkLoop d blkno fuel p = some r := by
  induction fuel generalizing p with
  | zero => exact absurd hfuel (Nat.not_lt_zero _)
  | succ fuel ih =>
    obtain ⟨hfree, hroom⟩ := not_or.mp hstuck
    rw [getblkLoop]
    cases hlookup : lookup p blkno with
    | some k =>
      obtain ⟨hblkno, hdev⟩ := of_lookup hlookup
      have hbusy : ¬ (p.buf k).busy = true := fun hbusy ↦ hfree ⟨k, hdev, hblkno, hbusy⟩
      exact ⟨_, if_neg hbusy⟩
    | none =>
      cases hav : p.av with
      | nil =>
        refine absurd (fun i ↦ ?_) hroom
        by_contra hbusy
        have hmem := (hinv.mem_av i).mpr (eq_false_of_ne_true hbusy)
        rw [hav] at hmem
        exact List.not_mem_nil hmem
      | cons k rest =>
        have hidle : (p.buf k).busy = false := (hinv.mem_av k).mp (hav ▸ List.mem_cons_self)
        dsimp only
        rw [buf_notavail_self]
        cases hdelwri : (p.buf k).delwri with
        | false => exact ⟨_, if_neg Bool.false_ne_true⟩
        | true =>
          have hkept := Kept.evict hinv hshows hidle hdelwri
          have hevicted := evicted d p k
          have hlt := hevicted.due_lt hidle hdelwri
          rw [if_pos rfl]
          refine ih hkept.inv hkept.shows (fun hstuck' ↦ ?_) (by omega)
          rcases hstuck' with ⟨i, hdev, hblkno, hbusy⟩ | hall
          · have hbusy' := (hkept.busy i).symm.trans hbusy
            rw [hkept.held i hbusy'] at hdev hblkno
            exact hfree ⟨i, hdev, hblkno, hbusy'⟩
          · exact hroom fun i ↦ (hkept.busy i).symm.trans (hall i)

end Rounds

section Runs

variable {d : Dsk} {disk : ℤ → Buffer}

/-- The cache, and what its users have written. -/
structure State where
  p : Pool
  mem : ℤ → Buffer

/-- A call of the cache, or a change of a buffer by the one who made it busy. A buffer is released without a write only
with the contents of its block, and it is written unless it had an error. -/
inductive Step (d : Dsk) (s : State) : State → Prop
  | getblk {blkno : ℤ} {q : Pool} {i : Fin NBUF} (h : getblk d s.p blkno = some (q, i)) : Step d s ⟨q, s.mem⟩
  | geteblk {q : Pool} {i : Fin NBUF} (h : geteblk d s.p = some (q, i)) : Step d s ⟨q, s.mem⟩
  | bread {blkno : ℤ} {q : Pool} {i : Fin NBUF} (h : bread d s.p blkno = some (q, i)) : Step d s ⟨q, s.mem⟩
  | breada {blkno rablkno : ℤ} {q : Pool} {i : Fin NBUF} (h : breada d s.p blkno rablkno = some (q, i)) :
      Step d s ⟨q, s.mem⟩
  | change {i : Fin NBUF} (hbusy : (s.p.buf i).busy = true) (c : Buffer) :
      Step d s ⟨s.p.modify i fun bp ↦ { bp with bAddr := c }, s.mem⟩
  | brelse {i : Fin NBUF} (hbusy : (s.p.buf i).busy = true)
      (hsame : (s.p.buf i).bDev = true → (s.p.buf i).done = true → (s.p.buf i).error = false →
        Trusted d s.p (s.p.buf i).bBlkno → (s.p.buf i).bAddr = s.mem (s.p.buf i).bBlkno) :
      Step d s ⟨brelse s.p i, s.mem⟩
  | bdwrite {i : Fin NBUF} (hbusy : (s.p.buf i).busy = true) (hdev : (s.p.buf i).bDev = true)
      (herror : (s.p.buf i).error = false) :
      Step d s ⟨bdwrite s.p i, Function.update s.mem (s.p.buf i).bBlkno (s.p.buf i).bAddr⟩
  | bwrite {i : Fin NBUF} (hbusy : (s.p.buf i).busy = true) (hdev : (s.p.buf i).bDev = true) (async : Bool) :
      Step d s ⟨bwrite d s.p i async, Function.update s.mem (s.p.buf i).bBlkno (s.p.buf i).bAddr⟩
  | bflush : Step d s ⟨bflush d s.p, s.mem⟩

inductive Run (d : Dsk) (disk : ℤ → Buffer) : State → Prop
  | start : Run d disk ⟨binit disk, disk⟩
  | step {s s' : State} (h : Run d disk s) (hstep : Step d s s') : Run d disk s'

variable {s s' : State}

theorem inv_change (h : Inv s.p) {i : Fin NBUF} (c : Buffer) : Inv (s.p.modify i fun bp ↦ { bp with bAddr := c }) := by
  refine h.keep rfl rfl h.nodup (fun j ↦ ?_) id rfl (h.delwri i) (h.error i)
  by_cases hji : j = i
  · rw [if_pos hji, hji]
    exact h.mem_av i
  · rw [if_neg hji]
    exact Iff.rfl

theorem shows_change (h : Shows d s.mem s.p) {i : Fin NBUF} (hbusy : (s.p.buf i).busy = true) (c : Buffer) :
    Shows d s.mem (s.p.modify i fun bp ↦ { bp with bAddr := c }) := by
  refine h.keep rfl le_rfl rfl (fun _ _ hdev hblkno hdelwri ↦ ⟨hdev, hblkno, hdelwri⟩) fun hidle ↦ ?_
  rw [hbusy] at hidle
  exact absurd hidle Bool.false_ne_true.symm

theorem Step.keeps (h : Step d s s') (hinv : Inv s.p) (hshows : Shows d s.mem s.p) :
    Inv s'.p ∧ Shows d s'.mem s'.p := by
  cases h with
  | getblk h =>
    obtain ⟨htaken, -⟩ := getblkLoop_spec hinv hshows h
    exact ⟨htaken.inv, htaken.shows⟩
  | geteblk h =>
    obtain ⟨htaken, -⟩ := geteblkLoop_spec hinv hshows h
    exact ⟨htaken.inv, htaken.shows⟩
  | bread h =>
    obtain ⟨htaken, -⟩ := bread_spec hinv hshows h
    exact ⟨htaken.inv, htaken.shows⟩
  | breada h =>
    obtain ⟨htaken, -⟩ := breada_spec hinv hshows h
    exact ⟨htaken.inv, htaken.shows⟩
  | change hbusy c => exact ⟨inv_change hinv c, shows_change hshows hbusy c⟩
  | brelse hbusy hsame => exact ⟨hinv.brelse hbusy, hshows.brelse hinv hsame⟩
  | bdwrite hbusy hdev herror => exact ⟨hinv.bdwrite hbusy hdev herror, hshows.bdwrite hinv hdev herror⟩
  | bwrite hbusy hdev async => exact ⟨hinv.bwrite hbusy d async, hshows.bwrite hinv hdev async⟩
  | bflush =>
    have hkept : Kept d s.mem s.p (Bio.bflush d s.p) := bflushLoop_spec hinv hshows
    exact ⟨hkept.inv, hkept.shows⟩

theorem inv_binit (disk : ℤ → Buffer) : Inv (binit disk) := by
  refine ⟨List.nodup_finRange NBUF, fun i ↦ ?_, fun i hdev ↦ ?_, fun i j hdev ↦ ?_, fun i hdelwri ↦ ?_, fun i herror ↦ ?_⟩
  · exact iff_of_true (List.mem_finRange i) rfl
  · exact absurd hdev Bool.false_ne_true
  · exact absurd hdev Bool.false_ne_true
  · exact absurd hdelwri Bool.false_ne_true
  · exact absurd herror Bool.false_ne_true

theorem shows_binit (d : Dsk) (disk : ℤ → Buffer) : Shows d disk (binit disk) :=
  ⟨fun _ _ _ ↦ rfl, fun _ _ hdev ↦ absurd hdev Bool.false_ne_true⟩

theorem Run.keeps (h : Run d disk s) : Inv s.p ∧ Shows d s.mem s.p := by
  induction h with
  | start => exact ⟨inv_binit disk, shows_binit d disk⟩
  | step _ hstep ih => exact hstep.keeps ih.1 ih.2

theorem Step.outside (h : Step d s s') (hinv : Inv s.p) (hshows : Shows d s.mem s.p) {b : ℤ} (hb : ¬ d.Holds b) :
    s'.p.disk b = s.p.disk b := by
  cases h with
  | getblk h => exact (getblkLoop_spec hinv hshows h).1.outside b hb
  | geteblk h => exact (geteblkLoop_spec hinv hshows h).1.outside b hb
  | bread h => exact (bread_spec hinv hshows h).1.outside b hb
  | breada h => exact (breada_spec hinv hshows h).1.outside b hb
  | change hbusy c => rfl
  | brelse hbusy hsame => rfl
  | bdwrite hbusy hdev herror => rfl
  | bwrite hbusy hdev async => exact bwrite_outside d s.p _ async hb
  | bflush =>
    have hkept : Kept d s.mem s.p (Bio.bflush d s.p) := bflushLoop_spec hinv hshows
    exact hkept.outside b hb

end Runs

section Results

variable {d : Dsk} {disk : ℤ → Buffer} {s : State} {blkno : ℤ} {q : Pool} {i : Fin NBUF}

/-- A disk of ten blocks that never fails. -/
def tenBlocks : Dsk := ⟨10, fun _ _ ↦ false⟩

theorem run_written :
    ∃ s q i, Run tenBlocks (fun _ _ ↦ 0) s ∧ s.mem 3 = (fun _ ↦ 7) ∧ bread tenBlocks s.p 3 = some (q, i) := by
  have hzero : 0 < NBUF := by decide
  have hget : getblk tenBlocks (binit fun _ _ ↦ 0) 3 =
      some (reassign (notavail (binit fun _ _ ↦ 0) ⟨0, hzero⟩) ⟨0, hzero⟩ 3, ⟨0, hzero⟩) := rfl
  have hrun := Run.step (.step .start (.getblk hget)) (.change (i := ⟨0, hzero⟩) rfl fun _ ↦ 7)
  exact ⟨_, _, ⟨0, hzero⟩, .step hrun (.bdwrite (i := ⟨0, hzero⟩) rfl rfl rfl), rfl, rfl⟩

theorem uError_bflushLoop (d : Dsk) (p : Pool) (fuel : ℕ) : (bflushLoop d fuel p).uError = p.uError := by
  induction fuel generalizing p with
  | zero => rfl
  | succ fuel ih =>
    rw [bflushLoop]
    cases hfind : p.av.find? fun i ↦ (p.buf i).delwri with
    | none => rfl
    | some k =>
      have hdelwri := List.find?_some hfind
      dsimp only
      rw [ih, bwrite_eq, buf_notavail_self]
      dsimp only
      rw [hdelwri, Bool.and_true, Bool.not_true, Bool.and_false, Bool.or_false]
      rfl

theorem getblkLoop_succ {p : Pool} {fuel : ℕ} (h : getblkLoop d blkno fuel p = some (q, i)) :
    getblkLoop d blkno (fuel + 1) p = some (q, i) := by
  induction fuel generalizing p with
  | zero => exact absurd h.symm (Option.some_ne_none _)
  | succ fuel ih =>
    rw [getblkLoop] at h ⊢
    cases hlookup : lookup p blkno with
    | some k =>
      rw [hlookup] at h
      dsimp only at h ⊢
      split at h
      · rename_i hbusy
        rw [if_pos hbusy]
        exact ih h
      · rename_i hbusy
        rw [if_neg hbusy]
        exact h
    | none =>
      rw [hlookup] at h
      cases hav : p.av with
      | nil =>
        rw [hav] at h
        exact ih h
      | cons k rest =>
        rw [hav] at h
        dsimp only at h ⊢
        split at h
        · rename_i hdelwri
          rw [if_pos hdelwri]
          exact ih h
        · rename_i hdelwri
          rw [if_neg hdelwri]
          exact h

theorem getblkLoop_of_le {p : Pool} {fuel fuel' : ℕ} (hle : fuel ≤ fuel') (h : getblkLoop d blkno fuel p = some (q, i)) :
    getblkLoop d blkno fuel' p = some (q, i) := by
  induction hle with
  | refl => exact h
  | step _ ih => exact getblkLoop_succ ih

/-- The cache never touches the disk outside its blocks. -/
theorem outside_of_run (h : Run d disk s) {b : ℤ} (hb : ¬ d.Holds b) : s.p.disk b = disk b := by
  induction h with
  | start => rfl
  | step h hstep ih => exact (hstep.outside h.keeps.1 h.keeps.2 hb).trans ih

theorem outside_of_run_ten : ∃ s : State, s.mem 3 = (fun _ ↦ 7) ∧ s.p.disk 10 = fun _ ↦ 0 := by
  obtain ⟨s, -, -, hrun, hmem, -⟩ := run_written
  exact ⟨s, hmem, outside_of_run hrun (by decide)⟩

end Results

end S8000.Filsys.Bio
