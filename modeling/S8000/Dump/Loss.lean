import S8000.Dump.RoundTrip

namespace S8000.Dump

open Foundation Foundation.Bytes Foundation.Holes

/-- A dump whose files have no holes. -/
structure SolidStream extends Stream where
  solid : ∀ f ∈ files, ∀ g ∈ f.segments, none ∉ g.slots

/-- Where a data record comes from: its record number and inode, the record numbers of the
`TS_INODE` header of its file, of the header whose map has its slot, of the headers with the
slots of the earlier blocks of the file, and of the `TS_INODE` headers of the earlier files. -/
structure Origin where
  number : ℕ
  inum : ℕ
  owner : ℕ
  head : ℕ
  before : List ℕ
  prior : List ℕ

/-- The logical block. -/
def Origin.lb (o : Origin) : ℕ := o.before.length

/-- The origins of the data records of a segment, of which the first stands at `o`. -/
def slotOrigins (o : Origin) : List (Option Record) → List (Option Origin)
  | [] => []
  | none :: s => slotOrigins { o with before := o.before ++ [o.head] } s
  | some _ :: s =>
    some o :: slotOrigins { o with number := o.number + 1, before := o.before ++ [o.head] } s

/-- The origins of the records of segments, of which the first header stands at `o`. -/
def segmentOrigins (o : Origin) : List Segment → List (Option Origin)
  | [] => []
  | s :: segs =>
    none :: slotOrigins { o with number := o.number + 1, head := o.number } s.slots ++
      segmentOrigins
        { o with
          number := o.number + s.records.length
          before := o.before ++ List.replicate s.slots.length o.number } segs

def fileOrigins (n : ℕ) (prior : List ℕ) : List DumpFile → List (Option Origin)
  | [] => []
  | f :: fs =>
    segmentOrigins ⟨n, f.inum, n, n, [], prior⟩ f.segments ++
      fileOrigins (n + f.records.length) (prior ++ [n]) fs

namespace Stream

/-- The record number of the first `TS_INODE` header. -/
def filesAt (s : Stream) : ℕ := 1 + (s.bitMaps.flatMap BitMap.records).length

def origins (s : Stream) : List (Option Origin) :=
  none :: (List.replicate (s.bitMaps.flatMap BitMap.records).length none ++
    (fileOrigins s.filesAt [] s.files ++ List.replicate s.ends.length none))

end Stream

/-- The records a tape holds from number `n` on after a loss. -/
def survivors (keep : ℕ → Bool) (n : ℕ) (rs : List Record) : List (Option Record × ℕ) :=
  (rs.zipIdx n).map fun p ↦ (if keep p.2 then some p.1 else none, p.2)

theorem survivors_cons (keep : ℕ → Bool) (n : ℕ) (r : Record) (rs : List Record) :
    survivors keep n (r :: rs) =
      (if keep n then some r else none, n) :: survivors keep (n + 1) rs := by
  rw [survivors, List.zipIdx_cons, List.map_cons, survivors]

theorem survivors_append (keep : ℕ → Bool) (n : ℕ) (a b : List Record) :
    survivors keep n (a ++ b) = survivors keep n a ++ survivors keep (n + a.length) b := by
  rw [survivors, List.zipIdx_append, List.map_append, survivors, survivors]

theorem survivors_take (keep : ℕ → Bool) (n k : ℕ) (rs : List Record) :
    survivors keep n (rs.take k) = (survivors keep n rs).take k := by
  apply List.ext_getElem
  · simp [survivors]
  · intro i _ _
    simp [survivors]

theorem getElem?_survivors (keep : ℕ → Bool) (rs : List Record) (i : ℕ) :
    (survivors keep 0 rs)[i]? = rs[i]?.map fun r ↦ (if keep i then some r else none, i) := by
  by_cases hi : i < rs.length
  · simp [survivors, hi]
  · simp [survivors, List.getElem?_eq_none (not_lt.mp hi)]

namespace Walk

/-- Where the loop puts each record of a run. -/
def trace (st : Walk) : List (Option Record × ℕ) → List (Option (ℕ × ℕ))
  | [] => []
  | p :: ps => st.placement p.1 :: trace (st.step p) ps

theorem trace_append (st : Walk) (a b : List (Option Record × ℕ)) :
    st.trace (a ++ b) = st.trace a ++ (a.foldl step st).trace b := by
  induction a generalizing st with
  | nil => rfl
  | cons p a ih => simp only [List.cons_append, trace, List.foldl_cons, ih]

theorem trace_take (st : Walk) (l : List (Option Record × ℕ)) (k : ℕ) :
    st.trace (l.take k) = (st.trace l).take k := by
  induction l generalizing st k with
  | nil => simp [trace]
  | cons p l ih =>
    cases k with
    | zero => rfl
    | succ k => simp only [List.take_succ_cons, trace, ih]

theorem getElem?_trace (st : Walk) (l : List (Option Record × ℕ)) (i : ℕ) :
    (st.trace l)[i]? = l[i]?.map fun p ↦ ((l.take i).foldl step st).placement p.1 := by
  induction l generalizing st i with
  | nil => simp [trace]
  | cons p l ih =>
    cases i with
    | zero => rfl
    | succ i => simpa [trace] using ih (st.step p) i

/-- No slot is left for a data record. -/
def Idle (st : Walk) : Prop := st.cur = none ∨ st.amap.length ≤ st.ai

theorem slot_idle {st : Walk} (h : st.Idle) : st.slot = (none, st) :=
  h.elim slot_of_cur_none slot_exhausted

/-- What the placement of later records depends on. -/
structure Agree (st st' : Walk) : Prop where
  cur : st'.cur = st.cur
  amap : st'.amap = st.amap
  ai : st'.ai = st.ai
  logical : st'.logical = st.logical

theorem Agree.idle {st st' : Walk} (h : Agree st st') (hi : st.Idle) : st'.Idle := by
  rw [Idle, h.cur, h.amap, h.ai]
  exact hi

theorem step_idle {st : Walk} (h : st.Idle) (keep : ℕ → Bool) {r : Record}
    (hr : parseHeader r = none) (n : ℕ) :
    Agree st (st.step (if keep n then some r else none, n)) ∧
      st.placement (if keep n then some r else none) = none := by
  cases keep n with
  | true =>
    simp only [if_true]
    rw [step_data hr, data_of_slot_none (slot_idle h), placement, if_pos hr, slot_idle h]
    exact ⟨⟨rfl, rfl, rfl, rfl⟩, rfl⟩
  | false =>
    simp only [Bool.false_eq_true, if_false, step, slot_idle h, placement]
    exact ⟨⟨rfl, rfl, rfl, rfl⟩, trivial⟩

theorem step_live {st : Walk} {ino : ℕ} (hc : st.cur = some ino) {b : Byte} {m : List Byte}
    (hb : b ≠ 0) (hm : st.amap.drop st.ai = b :: m) (keep : ℕ → Bool) {r : Record}
    (hr : parseHeader r = none) (n : ℕ) :
    Agree { st with ai := st.ai + 1, logical := st.logical + 1 }
        (st.step (if keep n then some r else none, n)) ∧
      st.placement (if keep n then some r else none) =
        if keep n then some (ino, st.logical) else none := by
  have hslot : st.slot = (some (ino, st.logical),
      { st with ai := st.ai + 1, logical := st.logical + 1 }) :=
    slot_of_drop (k := 0) hc hb hm
  cases keep n with
  | true =>
    simp only [if_true]
    rw [step_data hr, data, placement, if_pos hr, hslot]
    exact ⟨⟨rfl, rfl, rfl, rfl⟩, rfl⟩
  | false =>
    simp only [Bool.false_eq_true, if_false, step, hslot, placement]
    exact ⟨⟨rfl, rfl, rfl, rfl⟩, trivial⟩

end Walk

/-- The place a data record gets when the loop fills the inode `c.1` and counts its slots
from `c.2` on: slots of lost headers are not counted. -/
def Expected (keep : ℕ → Bool) (c : Option (ℕ × ℕ)) : Option Origin → Option (ℕ × ℕ) → Prop
  | none, p => p = none
  | some o, p => p = if keep o.number ∧ keep o.head then
      c.map fun q ↦ (q.1, q.2 + (o.before.filter keep).length) else none

/-- The loop stands between two headers of a file and has counted the slots in `before`. -/
structure Follows (keep : ℕ → Bool) (c : Option (ℕ × ℕ)) (before : List ℕ) (st : Walk) : Prop where
  cur : st.cur = c.map Prod.fst
  logical : ∀ q, c = some q → st.logical = q.2 + (before.filter keep).length

namespace Walk

variable {keep : ℕ → Bool} {c : Option (ℕ × ℕ)}

theorem Agree.follows {st st' : Walk} {before : List ℕ} (h : Agree st st')
    (hf : Follows keep c before st) : Follows keep c before st' :=
  ⟨h.cur.trans hf.cur, fun q hq ↦ h.logical.trans (hf.logical q hq)⟩

/-- Data records that find no slot: their header is lost or no inode is being read. -/
theorem trace_slots_idle {st : Walk} (hi : st.Idle) {s : List (Option Record)} {o : Origin}
    (hs : ∀ r, some r ∈ s → parseHeader r = none) (hn : none ∉ s)
    (hd : keep o.head = false ∨ c = none) (hf : Follows keep c o.before st) :
    List.Forall₂ (Expected keep c) (slotOrigins o s)
        (st.trace (survivors keep o.number (s.filterMap id))) ∧
      ((survivors keep o.number (s.filterMap id)).foldl step st).Idle ∧
      Follows keep c (o.before ++ List.replicate s.length o.head)
        ((survivors keep o.number (s.filterMap id)).foldl step st) := by
  induction s generalizing st o with
  | nil =>
    refine ⟨.nil, hi, ?_⟩
    simpa [survivors] using hf
  | cons a s ih =>
    cases a with
    | none => exact absurd List.mem_cons_self hn
    | some r =>
      obtain ⟨hagree, hplace⟩ := step_idle hi keep (hs r List.mem_cons_self) o.number
      have hf' : Follows keep c (o.before ++ [o.head])
          (st.step (if keep o.number then some r else none, o.number)) := by
        refine ⟨(hagree.follows hf).cur, fun q hq ↦ ?_⟩
        obtain hd | hd := hd
        · rw [(hagree.follows hf).logical q hq, List.filter_append]
          simp [hd]
        · exact absurd (hd.symm.trans hq) (by simp)
      obtain ⟨htrace, hidle, hfollows⟩ := ih (o := { o with
          number := o.number + 1, before := o.before ++ [o.head] })
        (hagree.idle hi) (fun r hr ↦ hs r (List.mem_cons_of_mem _ hr))
        (fun h ↦ hn (List.mem_cons_of_mem _ h)) hd hf'
      simp only [List.filterMap_cons, id_eq, survivors_cons, trace, List.foldl_cons, slotOrigins]
      refine ⟨.cons ?_ htrace, hidle, ?_⟩
      · rw [Expected, hplace]
        obtain hd | hd := hd <;> simp [hd]
      · simpa [List.replicate_succ] using hfollows

/-- Data records behind a surviving header fill its slots in order, lost ones too. -/
theorem trace_slots_live {st : Walk} {q : ℕ × ℕ} {s : List (Option Record)} {o : Origin}
    (hm : Marks (st.amap.drop st.ai) s)
    (hs : ∀ r, some r ∈ s → parseHeader r = none) (hn : none ∉ s)
    (hk : keep o.head = true) (hf : Follows keep (some q) o.before st) :
    List.Forall₂ (Expected keep (some q)) (slotOrigins o s)
        (st.trace (survivors keep o.number (s.filterMap id))) ∧
      ((survivors keep o.number (s.filterMap id)).foldl step st).Idle ∧
      Follows keep (some q) (o.before ++ List.replicate s.length o.head)
        ((survivors keep o.number (s.filterMap id)).foldl step st) := by
  induction s generalizing st o with
  | nil =>
    have hnil : st.amap.drop st.ai = [] := by
      simpa [Marks] using hm
    refine ⟨.nil, .inr (List.drop_eq_nil_iff.mp hnil), ?_⟩
    simpa [survivors] using hf
  | cons a s ih =>
    cases a with
    | none => exact absurd List.mem_cons_self hn
    | some r =>
      obtain ⟨b, m, hb, hms, hdrop⟩ := List.forall₂_cons_right_iff.mp hm
      have hb0 : b ≠ 0 := fun h ↦ by simpa using hb.mp h
      have hlog := hf.logical q rfl
      obtain ⟨hagree, hplace⟩ :=
        step_live hf.cur hb0 hdrop keep (hs r List.mem_cons_self) o.number
      let st' := st.step (if keep o.number then some r else none, o.number)
      have hm' : Marks (st'.amap.drop st'.ai) s := by
        rw [hagree.amap, hagree.ai]
        change Marks (st.amap.drop (st.ai + 1)) s
        rw [← List.drop_drop, hdrop]
        exact hms
      have hf' : Follows keep (some q) (o.before ++ [o.head]) st' := by
        refine ⟨hagree.cur.trans hf.cur, fun q' hq ↦ ?_⟩
        obtain rfl := Option.some.inj hq
        rw [hagree.logical, List.filter_append]
        simp [hk, hlog, Nat.add_assoc]
      obtain ⟨htrace, hidle, hfollows⟩ := ih (o := { o with
          number := o.number + 1, before := o.before ++ [o.head] })
        hm' (fun r hr ↦ hs r (List.mem_cons_of_mem _ hr))
        (fun h ↦ hn (List.mem_cons_of_mem _ h)) hk hf'
      simp only [List.filterMap_cons, id_eq, survivors_cons, trace, List.foldl_cons, slotOrigins]
      refine ⟨.cons ?_ htrace, hidle, ?_⟩
      · rw [Expected, hplace]
        simp [hk, hlog]
      · simpa [List.replicate_succ] using hfollows

/-- The data records of a segment, once its header has been read or found lost. -/
theorem trace_segment {st : Walk} {s : Segment} {o : Origin} (hn : none ∉ s.slots)
    (hkept : keep o.head = true → st.amap = s.spcl.encode.addrMap ∧ st.ai = 0)
    (hlost : keep o.head = false → st.Idle) (hf : Follows keep c o.before st) :
    List.Forall₂ (Expected keep c) (slotOrigins o s.slots)
        (st.trace (survivors keep o.number (s.slots.filterMap id))) ∧
      ((survivors keep o.number (s.slots.filterMap id)).foldl step st).Idle ∧
      Follows keep c (o.before ++ List.replicate s.slots.length o.head)
        ((survivors keep o.number (s.slots.filterMap id)).foldl step st) := by
  cases hk : keep o.head with
  | false => exact trace_slots_idle (hlost hk) s.data_not_header hn (.inl hk) hf
  | true =>
    obtain ⟨hamap, hai⟩ := hkept hk
    cases c with
    | none =>
      have hi : st.Idle := .inl hf.cur
      exact trace_slots_idle hi s.data_not_header hn (.inr rfl) hf
    | some q =>
      have hm : Marks (st.amap.drop st.ai) s.slots := by
        rw [hamap, hai]
        exact s.marks
      exact trace_slots_live hm s.data_not_header hn hk hf

theorem placement_header {st : Walk} (s : Spcl) (b : Bool) :
    st.placement (if b then some s.encode else none) = none := by
  cases b with
  | true => simp [placement, s.parseHeader_encode]
  | false => rfl

theorem step_lost {st : Walk} (hi : st.Idle) (n : ℕ) : st.step (none, n) = st := by
  rw [step, slot_idle hi]

/-- A segment of a file at record number `o.number`, from the state its header leaves. -/
theorem trace_segment_header {st st' : Walk} {s : Segment} {o : Origin} (hn : none ∉ s.slots)
    (hstep : st.step (if keep o.number then some s.spcl.encode else none, o.number) = st')
    (hkept : keep o.number = true → st'.amap = s.spcl.encode.addrMap ∧ st'.ai = 0)
    (hlost : keep o.number = false → st'.Idle) (hf : Follows keep c o.before st') :
    List.Forall₂ (Expected keep c)
        (none :: slotOrigins { o with number := o.number + 1, head := o.number } s.slots)
        (st.trace (survivors keep o.number s.records)) ∧
      ((survivors keep o.number s.records).foldl step st).Idle ∧
      Follows keep c (o.before ++ List.replicate s.slots.length o.number)
        ((survivors keep o.number s.records).foldl step st) := by
  obtain ⟨htrace, hidle, hfollows⟩ := trace_segment
    (o := { o with number := o.number + 1, head := o.number }) hn hkept hlost hf
  simp only [Segment.records, survivors_cons, trace, List.foldl_cons, hstep, placement_header]
  exact ⟨.cons rfl htrace, hidle, hfollows⟩

theorem trace_addrs {st : Walk} {segs : List Segment} {o : Origin}
    (ht : ∀ s ∈ segs, s.spcl.type.toInt = tsAddr) (hn : ∀ s ∈ segs, none ∉ s.slots)
    (hi : st.Idle) (hf : Follows keep c o.before st) :
    List.Forall₂ (Expected keep c) (segmentOrigins o segs)
        (st.trace (survivors keep o.number (segs.flatMap Segment.records))) ∧
      ((survivors keep o.number (segs.flatMap Segment.records)).foldl step st).Idle ∧
      ((survivors keep o.number (segs.flatMap Segment.records)).foldl step st).cur =
        c.map Prod.fst := by
  induction segs generalizing st o with
  | nil => exact ⟨.nil, hi, hf.cur⟩
  | cons s segs ih =>
    have hseg : List.Forall₂ (Expected keep c)
          (none :: slotOrigins { o with number := o.number + 1, head := o.number } s.slots)
          (st.trace (survivors keep o.number s.records)) ∧
        ((survivors keep o.number s.records).foldl step st).Idle ∧
        Follows keep c (o.before ++ List.replicate s.slots.length o.number)
          ((survivors keep o.number s.records).foldl step st) := by
      cases hk : keep o.number with
      | true =>
        refine trace_segment_header (hn s List.mem_cons_self)
          (by rw [hk, if_pos rfl, step_addr (ht s List.mem_cons_self)])
          (fun _ ↦ ⟨rfl, rfl⟩) (fun h ↦ absurd (hk.symm.trans h) (by decide)) ?_
        exact ⟨hf.cur, hf.logical⟩
      | false =>
        refine trace_segment_header (hn s List.mem_cons_self)
          (by rw [hk, if_neg (by decide), step_lost hi])
          (fun h ↦ absurd (hk.symm.trans h) (by decide)) (fun _ ↦ hi) hf
    obtain ⟨htrace, hidle, hfollows⟩ := hseg
    obtain ⟨htrace', hidle', hcur'⟩ := ih (o := { o with
        number := o.number + s.records.length
        before := o.before ++ List.replicate s.slots.length o.number })
      (fun s hs ↦ ht s (List.mem_cons_of_mem _ hs)) (fun s hs ↦ hn s (List.mem_cons_of_mem _ hs))
      hidle hfollows
    rw [List.flatMap_cons, survivors_append, trace_append, List.foldl_append, segmentOrigins]
    exact ⟨List.rel_append htrace htrace', hidle', hcur'⟩

/-- What the loop fills while it reads a file whose `TS_INODE` header has number `n`. -/
def target (keep : ℕ → Bool) (st : Walk) (f : DumpFile) (n : ℕ) : Option (ℕ × ℕ) :=
  if keep n then some (f.inum, 0) else st.cur.map (·, st.logical)

theorem trace_file (keep : ℕ → Bool) {st : Walk} (hi : st.Idle) (f : DumpFile) (hn : ∀ s ∈ f.segments, none ∉ s.slots)
    (n : ℕ) (prior : List ℕ) :
    List.Forall₂ (Expected keep (target keep st f n))
        (segmentOrigins ⟨n, f.inum, n, n, [], prior⟩ f.segments)
        (st.trace (survivors keep n f.records)) ∧
      ((survivors keep n f.records).foldl step st).Idle ∧
      ((survivors keep n f.records).foldl step st).cur =
        if keep n then some f.inum else st.cur := by
  let o : Origin := ⟨n, f.inum, n, n, [], prior⟩
  have hfirst := hn f.first List.mem_cons_self
  have hseg : List.Forall₂ (Expected keep (target keep st f n))
        (none :: slotOrigins { o with number := n + 1, head := n } f.first.slots)
        (st.trace (survivors keep n f.first.records)) ∧
      ((survivors keep n f.first.records).foldl step st).Idle ∧
      Follows keep (target keep st f n) ([] ++ List.replicate f.first.slots.length n)
        ((survivors keep n f.first.records).foldl step st) := by
    cases hk : keep n with
    | true =>
      refine trace_segment_header (o := o) hfirst (by
          change st.step (if keep n then _ else _, n) = _
          rw [hk, if_pos rfl, step_inode])
        (fun _ ↦ ⟨rfl, rfl⟩) (fun h ↦ absurd (hk.symm.trans h) (by decide)) ⟨?_, ?_⟩
      · rw [target, hk]
        rfl
      · intro q hq
        rw [target, hk] at hq
        obtain rfl := Option.some.inj hq
        rfl
    | false =>
      refine trace_segment_header (o := o) hfirst (by
          change st.step (if keep n then _ else _, n) = _
          rw [hk, if_neg (by decide), step_lost hi])
        (fun h ↦ absurd (hk.symm.trans h) (by decide)) (fun _ ↦ hi) ⟨?_, ?_⟩
      · rw [target, hk]
        cases st.cur <;> rfl
      · intro q hq
        rw [target, hk, if_neg (by decide)] at hq
        obtain ⟨ino, -, rfl⟩ := Option.map_eq_some_iff.mp hq
        rfl
  obtain ⟨htrace, hidle, hfollows⟩ := hseg
  obtain ⟨htrace', hidle', hcur'⟩ := trace_addrs (o := { o with
      number := n + f.first.records.length
      before := [] ++ List.replicate f.first.slots.length n })
    f.rest_type (fun s hs ↦ hn s (List.mem_cons_of_mem _ hs)) hidle hfollows
  rw [DumpFile.records, DumpFile.segments, List.flatMap_cons, survivors_append, trace_append,
    List.foldl_append, segmentOrigins]
  refine ⟨List.rel_append htrace htrace', hidle', hcur'.trans ?_⟩
  rw [target]
  split
  · rfl
  · cases st.cur <;> rfl

end Walk

theorem slotOrigins_file {o o' : Origin} {s : List (Option Record)} (h : some o' ∈ slotOrigins o s) :
    o'.inum = o.inum ∧ o'.owner = o.owner ∧ o'.prior = o.prior := by
  induction s generalizing o with
  | nil => cases h
  | cons a s ih =>
    cases a with
    | none =>
      have h' := ih h
      exact h'
    | some r =>
      obtain h | h := List.mem_cons.mp h
      · obtain rfl := Option.some.inj h
        exact ⟨rfl, rfl, rfl⟩
      · have h' := ih h
        exact h'

theorem segmentOrigins_file {o o' : Origin} {segs : List Segment}
    (h : some o' ∈ segmentOrigins o segs) :
    o'.inum = o.inum ∧ o'.owner = o.owner ∧ o'.prior = o.prior := by
  induction segs generalizing o with
  | nil => cases h
  | cons s segs ih =>
    obtain h | h := List.mem_append.mp h
    · obtain h | h := List.mem_cons.mp h
      · cases h
      · have h' := slotOrigins_file h
        exact h'
    · have h' := ih h
      exact h'

/-- The header losses that do not misplace the record: either the `TS_INODE` header is there
and so are the headers with the slots of all earlier blocks, or neither it nor any `TS_INODE`
header before it is. A lost record, and one whose own header is lost, is never misplaced. -/
def Origin.Anchored (keep : ℕ → Bool) (o : Origin) : Prop :=
  keep o.number → keep o.head →
    if keep o.owner then ∀ h ∈ o.before, keep h else ∀ h ∈ o.prior, ¬ keep h

/-- The place `p` is the record's own, if it is one. -/
def Faithful (o : Option Origin) (p : Option (ℕ × ℕ)) : Prop :=
  ∀ q, p = some q → ∃ o', o = some o' ∧ q = (o'.inum, o'.lb)

def FaithfulIffAnchored (keep : ℕ → Bool) (o : Option Origin) (p : Option (ℕ × ℕ)) : Prop :=
  Faithful o p ↔ ∀ o', o = some o' → o'.Anchored keep

theorem faithfulIffAnchored_none (keep : ℕ → Bool) : FaithfulIffAnchored keep none none :=
  ⟨fun _ _ ho ↦ absurd ho (Option.some_ne_none _).symm,
    fun _ _ hq ↦ absurd hq (Option.some_ne_none _).symm⟩

theorem length_filter_eq_iff (keep : ℕ → Bool) (l : List ℕ) :
    (l.filter keep).length = l.length ↔ ∀ h ∈ l, keep h := by
  rw [← List.filter_eq_self]
  exact ⟨fun h ↦ List.filter_sublist.eq_of_length h, fun h ↦ by rw [h]⟩

/-- A record of the file `f` at `n` gets its own place exactly when it is anchored, provided
no other file has the inode being filled. -/
theorem Expected.faithful_iff {keep : ℕ → Bool} {st : Walk} {f : DumpFile} {n : ℕ}
    {prior : List ℕ} (hne : st.cur ≠ some f.inum) (hcur : st.cur = none ↔ ∀ h ∈ prior, ¬ keep h)
    {o : Option Origin} {p : Option (ℕ × ℕ)}
    (ho : ∀ o', o = some o' → o'.inum = f.inum ∧ o'.owner = n ∧ o'.prior = prior)
    (h : Expected keep (st.target keep f n) o p) : FaithfulIffAnchored keep o p := by
  cases o with
  | none =>
    obtain rfl : p = none := h
    exact faithfulIffAnchored_none keep
  | some o =>
    obtain ⟨hinum, howner, hprior⟩ := ho o rfl
    obtain rfl : p = _ := h
    rw [FaithfulIffAnchored, Faithful]
    simp only [Option.some.injEq, forall_eq', exists_eq_left', Origin.Anchored, Origin.lb, hinum,
      howner, hprior]
    by_cases hnum : keep o.number = true
    swap
    · simp [hnum]
    by_cases hhead : keep o.head = true
    swap
    · simp [hhead]
    simp only [hnum, hhead, and_self, if_true, true_implies, Walk.target]
    by_cases hk : keep n = true
    · simp only [hk, if_true, Option.map_some, Option.some.injEq, forall_eq', Prod.mk.injEq,
        true_and, Nat.zero_add]
      exact length_filter_eq_iff keep o.before
    · simp only [hk, if_false, Bool.false_eq_true, ← hcur]
      cases hc : st.cur with
      | none => simp
      | some g =>
        rw [hc] at hne
        simpa using fun h ↦ absurd (congrArg some h) hne

namespace Walk

variable (keep : ℕ → Bool)

/-- The inode being filled is that of the last surviving `TS_INODE` header. -/
theorem trace_files {st : Walk} (hi : st.Idle) (earlier : List ℕ) (prior : List ℕ)
    (hcur : st.cur = none ↔ ∀ h ∈ prior, ¬ keep h) (hmem : ∀ g, st.cur = some g → g ∈ earlier)
    (fs : List DumpFile) (hnodup : (earlier ++ fs.map DumpFile.inum).Nodup)
    (hn : ∀ f ∈ fs, ∀ s ∈ f.segments, none ∉ s.slots) (n : ℕ) :
    List.Forall₂ (FaithfulIffAnchored keep) (fileOrigins n prior fs)
      (st.trace (survivors keep n (fs.flatMap DumpFile.records))) := by
  induction fs generalizing st earlier prior n with
  | nil => exact .nil
  | cons f fs ih =>
    obtain ⟨htrace, hidle, hcur'⟩ := trace_file keep hi f (hn f List.mem_cons_self) n prior
    have hne : st.cur ≠ some f.inum := fun h ↦ by
      have hdisj := List.disjoint_of_nodup_append hnodup
      exact hdisj (hmem _ h) List.mem_cons_self
    have hfile : List.Forall₂ (FaithfulIffAnchored keep)
        (segmentOrigins ⟨n, f.inum, n, n, [], prior⟩ f.segments)
        (st.trace (survivors keep n f.records)) := by
      have hown : ∀ o ∈ segmentOrigins ⟨n, f.inum, n, n, [], prior⟩ f.segments,
          ∀ o', o = some o' → o'.inum = f.inum ∧ o'.owner = n ∧ o'.prior = prior :=
        fun o ho o' ho' ↦ segmentOrigins_file (ho' ▸ ho)
      have hboth := (List.forall₂_and_left _ _).mpr ⟨hown, htrace⟩
      exact hboth.imp fun o p h ↦ Expected.faithful_iff hne hcur h.1 h.2
    rw [List.flatMap_cons, survivors_append, trace_append, fileOrigins]
    refine List.rel_append hfile (ih hidle (earlier ++ [f.inum]) (prior ++ [n]) ?_ ?_ ?_ ?_ _)
    · rw [hcur']
      cases hk : keep n with
      | true => simp [hk]
      | false => simpa [hk, or_imp, forall_and] using hcur
    · intro g hg
      rw [hcur'] at hg
      split at hg
      · obtain rfl := Option.some.inj hg
        simp
      · exact List.mem_append_left _ (hmem g hg)
    · simpa using hnodup
    · exact fun f hf ↦ hn f (List.mem_cons_of_mem _ hf)

/-- Before the first `TS_INODE` header nothing is placed. -/
theorem trace_unowned {st : Walk} (hc : st.cur = none) (rs : List Record)
    (hr : ∀ r ∈ rs, ∀ h, parseHeader r = some h → h.type ≠ tsInode) (n : ℕ) :
    st.trace (survivors keep n rs) = List.replicate rs.length none ∧
      ((survivors keep n rs).foldl step st).cur = none := by
  induction rs generalizing st n with
  | nil => exact ⟨rfl, hc⟩
  | cons r rs ih =>
    have hstep : (st.step (if keep n then some r else none, n)).cur = none ∧
        st.placement (if keep n then some r else none) = none := by
      cases hh : parseHeader r with
      | none =>
        obtain ⟨hagree, hplace⟩ := step_idle (.inl hc) keep hh n
        exact ⟨hagree.cur.trans hc, hplace⟩
      | some h =>
        cases hk : keep n with
        | true =>
          simp only [if_true, step_header hh, placement, hh, reduceCtorEq, if_false, and_true]
          rw [header]
          have ht := hr r List.mem_cons_self h hh
          rw [if_neg ht]
          split
          · rfl
          · split
            · exact hc
            · rfl
        | false =>
          have hi : st.Idle := .inl hc
          simp only [Bool.false_eq_true, if_false, step_lost hi]
          exact ⟨hc, rfl⟩
    obtain ⟨htrace, hcur⟩ := ih hstep.1 (fun r h ↦ hr r (List.mem_cons_of_mem _ h)) (n + 1)
    rw [survivors_cons, trace, List.foldl_cons, htrace, hstep.2]
    exact ⟨rfl, hcur⟩

theorem trace_headers (st : Walk) (es : List Spcl) (n : ℕ) :
    st.trace (survivors keep n (es.map Spcl.encode)) = List.replicate es.length none := by
  induction es generalizing st n with
  | nil => rfl
  | cons e es ih =>
    rw [List.map_cons, survivors_cons, trace, placement_header, ih]
    rfl

end Walk

theorem forall₂_faithfulIffAnchored_none (keep : ℕ → Bool) (n : ℕ) :
    List.Forall₂ (FaithfulIffAnchored keep) (List.replicate n none) (List.replicate n none) := by
  induction n with
  | zero => exact .nil
  | succ n ih => exact .cons (faithfulIffAnchored_none keep) ih

theorem BitMap.not_inode {ms : List BitMap} :
    ∀ r ∈ ms.flatMap BitMap.records, ∀ h, parseHeader r = some h → h.type ≠ tsInode := by
  intro r hr h hh
  obtain ⟨m, -, hr⟩ := List.mem_flatMap.mp hr
  obtain rfl | hr := List.mem_cons.mp hr
  · obtain rfl := Option.some.inj (m.spcl.parseHeader_encode.symm.trans hh)
    have ht : m.spcl.header.type = m.spcl.type.toInt := rfl
    rw [ht]
    obtain h | h := m.type_eq <;> rw [h] <;> decide
  · exact absurd (hh.symm.trans (m.map_not_header r hr)) (Option.some_ne_none h)

namespace SolidStream

variable (s : SolidStream) (keep : ℕ → Bool)

theorem trace_records :
    List.Forall₂ (FaithfulIffAnchored keep) s.origins (Walk.trace {} (survivors keep 0 s.records)) := by
  have hvol : ∀ r ∈ s.volume.encode :: s.bitMaps.flatMap BitMap.records,
      ∀ h, parseHeader r = some h → h.type ≠ tsInode := by
    intro r hr h hh
    obtain rfl | hr := List.mem_cons.mp hr
    · obtain rfl := Option.some.inj (s.volume.parseHeader_encode.symm.trans hh)
      have ht : s.volume.header.type = tsTape := s.volume_type
      rw [ht]
      decide
    · exact BitMap.not_inode r hr h hh
  obtain ⟨htrace, hcur⟩ := Walk.trace_unowned keep (rfl : ({} : Walk).cur = none) _ hvol 0
  have hfiles := Walk.trace_files keep (.inl hcur) [] [] (by simpa using hcur)
    (fun g hg ↦ absurd (hcur.symm.trans hg) (by simp)) s.files (by simpa using s.nodup_inums)
    s.solid s.filesAt
  have hat : 0 + (s.volume.encode :: s.bitMaps.flatMap BitMap.records).length = s.filesAt := by
    rw [Stream.filesAt, List.length_cons]
    omega
  rw [Stream.records, ← List.cons_append, survivors_append, Walk.trace_append, htrace, hat,
    survivors_append, Walk.trace_append, Walk.trace_headers, Stream.origins]
  exact .cons (faithfulIffAnchored_none keep)
    (List.rel_append (forall₂_faithfulIffAnchored_none keep _)
      (List.rel_append hfiles (forall₂_faithfulIffAnchored_none keep _)))

end SolidStream

namespace Walk

/-- The run over the numbers below `n` of a tape map of `rs` with losses. -/
theorem walkTo_filterKeys (keep : ℕ → Bool) (rs : List Record) (n : ℕ) (hn : n ≤ rs.length) :
    walkTo ((tapeOf rs).filterKeys keep) n = (survivors keep 0 (rs.take n)).foldl step {} := by
  rw [walkTo]
  congr 1
  apply List.ext_getElem
  · simp [survivors, hn]
  · intro i hi _
    have hi' : i < n := by simpa using hi
    simp [survivors, Dict.get?_filterKeys, get?_tapeOf, show i < rs.length by omega]

/-- The whole run: the numbers behind the last record of the tape are not visited, but
nothing is placed there either. -/
theorem placement_walkTo (keep : ℕ → Bool) (rs : List Record) (i : ℕ) :
    (walkTo ((tapeOf rs).filterKeys keep) i).placement (((tapeOf rs).filterKeys keep).get? i) =
      ((Walk.trace {} (survivors keep 0 rs))[i]?).join := by
  rw [getElem?_trace, getElem?_survivors, Dict.get?_filterKeys, get?_tapeOf]
  by_cases hi : i < rs.length
  · rw [walkTo_filterKeys keep rs i (by omega), survivors_take]
    simp [hi]
  · simp [List.getElem?_eq_none (not_lt.mp hi), placement]

theorem slot_frame (st : Walk) : st.slot.2.inodes = st.inodes ∧ st.slot.2.blocks = st.blocks := by
  rw [slot]
  split <;> exact ⟨rfl, rfl⟩

theorem step_blocks (st : Walk) (p : Option Record × ℕ) (ino lb : ℕ) :
    blockAt (st.step p).blocks ino lb =
      if st.placement p.1 = some (ino, lb) then p.1 else blockAt st.blocks ino lb := by
  have hframe := st.slot_frame.2
  obtain ⟨_ | r, n⟩ := p
  · rw [step, hframe, placement, if_neg (by simp)]
  · cases hh : parseHeader r with
    | none =>
      rw [step_data hh, data, placement, if_pos hh]
      rcases hslot : st.slot with ⟨_ | ⟨ino', lb'⟩, st'⟩
      · have hb : st'.blocks = st.blocks := by rw [← hframe, hslot]
        rw [if_neg (by simp), ← hb]
      · have hb : st'.blocks = st.blocks := by rw [← hframe, hslot]
        simp only [blockAt_setBlock, Option.some.injEq, Prod.mk.injEq, hb]
    | some h =>
      have hplace : st.placement (some r) = none := by simp [placement, hh]
      rw [step_header hh, hplace, if_neg (by simp), header]
      split
      · rfl
      · split
        · rfl
        · split <;> rfl

theorem step_inodes (st : Walk) (p : Option Record × ℕ) :
    (st.step p).inodes = match p.1 with
      | none => st.inodes
      | some r => match parseHeader r with
        | none => st.inodes
        | some h => if h.type = tsInode then st.inodes.set h.inum r.dinode else st.inodes := by
  have hframe := st.slot_frame.1
  obtain ⟨_ | r, n⟩ := p
  · exact hframe
  · cases hh : parseHeader r with
    | none =>
      simp only [step_data hh, hh, data]
      rcases hslot : st.slot with ⟨_ | ⟨ino', lb'⟩, st'⟩ <;>
        rw [hslot] at hframe <;> exact hframe
    | some h =>
      simp only [step_header hh, hh, header]
      by_cases ht : h.type = tsTape
      · have hne : h.type ≠ tsInode := by rw [ht]; decide
        rw [if_pos ht, if_neg hne]
      · rw [if_neg ht]
        by_cases hi : h.type = tsInode
        · rw [if_pos hi, if_pos hi]
        · rw [if_neg hi, if_neg hi]
          split <;> rfl

/-- Every block stored in a run was placed by one of its records. -/
theorem blockAt_foldl {st : Walk} {l : List (Option Record × ℕ)} {ino lb : ℕ} {r : Record}
    (h : blockAt (l.foldl step st).blocks ino lb = some r) :
    blockAt st.blocks ino lb = some r ∨
      ∃ i : ℕ, ∃ n, l[i]? = some (some r, n) ∧ (st.trace l)[i]? = some (some (ino, lb)) := by
  induction l generalizing st with
  | nil => exact .inl h
  | cons p l ih =>
    obtain h | ⟨i, n, hi, ht⟩ := ih h
    · rw [step_blocks] at h
      split at h
      · rename_i hp
        exact .inr ⟨0, p.2, by rw [← h]; rfl, by rw [← hp]; rfl⟩
      · exact .inl h
    · exact .inr ⟨i + 1, n, hi, ht⟩

/-- An inode is known from its first surviving `TS_INODE` header on. -/
theorem get?_inodes_foldl {st : Walk} {l : List (Option Record × ℕ)} {ino : ℕ} {d : Dinode}
    (huniq : ∀ r n, (some r, n) ∈ l → ∀ h, parseHeader r = some h → h.type = tsInode →
      h.inum = ino → r.dinode = d)
    (hmem : st.inodes.get? ino = some d ∨ ∃ r n h, (some r, n) ∈ l ∧ parseHeader r = some h ∧
      h.type = tsInode ∧ h.inum = ino) :
    (l.foldl step st).inodes.get? ino = some d := by
  induction l generalizing st with
  | nil =>
    obtain h | ⟨r, n, h, hr, -⟩ := hmem
    · exact h
    · cases hr
  | cons p l ih =>
    refine ih (fun r n hr ↦ huniq r n (List.mem_cons_of_mem _ hr)) ?_
    rw [step_inodes]
    obtain ⟨_ | r, n⟩ := p
    · obtain h | ⟨r, m, h, hr, hh⟩ := hmem
      · exact .inl h
      · obtain hr | hr := List.mem_cons.mp hr
        · cases hr
        · exact .inr ⟨r, m, h, hr, hh⟩
    · have hkeep : st.inodes.get? ino = some d → (match parseHeader r with
          | none => st.inodes
          | some h => if h.type = tsInode then st.inodes.set h.inum r.dinode else st.inodes).get? ino
            = some d := by
        intro hget
        split
        · exact hget
        · rename_i h hh
          split
          · rename_i ht
            rw [Dict.get?_set]
            split
            · rename_i hino
              rw [huniq r n List.mem_cons_self h hh ht hino]
            · exact hget
          · exact hget
      obtain h | ⟨r', m, h, hr, hh, ht, hino⟩ := hmem
      · exact .inl (hkeep h)
      · obtain hr | hr := List.mem_cons.mp hr
        · obtain ⟨rfl, rfl⟩ : r' = r ∧ m = n := by simpa using hr
          left
          simp only [hh, ht, if_true, hino, Dict.get?_set_self,
            huniq r' m List.mem_cons_self h hh ht hino]
        · exact .inr ⟨r', m, h, hr, hh, ht, hino⟩

end Walk

theorem forall₂_slotOrigins (done s : List (Option Record)) (o : Origin)
    (ho : o.before.length = done.length) :
    List.Forall₂ (fun o' r ↦ ∀ o'', o' = some o'' → entry (done ++ s) o''.lb = some r)
      (slotOrigins o s) (s.filterMap id) := by
  induction s generalizing done o with
  | nil => exact .nil
  | cons a s ih =>
    have hnext : ∀ n, List.Forall₂
        (fun o' r ↦ ∀ o'', o' = some o'' → entry (done ++ a :: s) o''.lb = some r)
        (slotOrigins { o with number := n, before := o.before ++ [o.head] } s) (s.filterMap id) := by
      intro n
      have h := ih (done ++ [a]) { o with number := n, before := o.before ++ [o.head] } (by simp [ho])
      simpa using h
    cases a with
    | none => exact hnext o.number
    | some r =>
      refine .cons ?_ (hnext (o.number + 1))
      intro o'' ho''
      obtain rfl := Option.some.inj ho''
      rw [Origin.lb, ho, entry_append, if_neg (by omega), Nat.sub_self]
      rfl

theorem forall₂_segmentOrigins (done : List (Option Record)) (segs : List Segment) (o : Origin)
    (ho : o.before.length = done.length) :
    List.Forall₂ (fun o' r ↦ ∀ o'', o' = some o'' →
        entry (done ++ segs.flatMap Segment.slots) o''.lb = some r)
      (segmentOrigins o segs) (segs.flatMap Segment.records) := by
  induction segs generalizing done o with
  | nil => exact .nil
  | cons s segs ih =>
    have hslots := forall₂_slotOrigins done s.slots
      { o with number := o.number + 1, head := o.number } ho
    have hrest := ih (done ++ s.slots)
      { o with
        number := o.number + s.records.length
        before := o.before ++ List.replicate s.slots.length o.number } (by simp [ho])
    rw [List.flatMap_cons, List.flatMap_cons, segmentOrigins, ← List.append_assoc]
    refine List.rel_append (.cons (by simp) (hslots.imp fun o' r h o'' ho'' ↦ ?_)) hrest
    have hget := h o'' ho''
    rw [entry_append, if_pos, hget]
    by_contra hlt
    rw [entry_of_length_le (not_lt.mp hlt)] at hget
    cases hget

/-- The record is the block of one of the files that its origin says. -/
def Stems (fs : List DumpFile) (o : Option Origin) (r : Record) : Prop :=
  ∀ o', o = some o' → ∃ f ∈ fs, f.inum = o'.inum ∧ entry f.blocks o'.lb = some r

theorem stems_none (fs : List DumpFile) (r : Record) : Stems fs none r :=
  fun _ h ↦ absurd h (Option.some_ne_none _).symm

theorem forall₂_fileOrigins (n : ℕ) (prior : List ℕ) (fs : List DumpFile) :
    List.Forall₂ (Stems fs) (fileOrigins n prior fs) (fs.flatMap DumpFile.records) := by
  induction fs generalizing n prior with
  | nil => exact .nil
  | cons f fs ih =>
    have hfile := forall₂_segmentOrigins [] f.segments ⟨n, f.inum, n, n, [], prior⟩ rfl
    have hown : ∀ o ∈ segmentOrigins ⟨n, f.inum, n, n, [], prior⟩ f.segments,
        ∀ o', o = some o' → o'.inum = f.inum :=
      fun o ho o' ho' ↦ (segmentOrigins_file (ho' ▸ ho)).1
    have hboth := (List.forall₂_and_left _ _).mpr ⟨hown, hfile⟩
    rw [List.flatMap_cons, fileOrigins]
    refine List.rel_append (hboth.imp fun o r h o' ho' ↦ ?_)
      ((ih _ _).imp fun o r h o' ho' ↦ ?_)
    · exact ⟨f, List.mem_cons_self, (h.1 o' ho').symm, h.2 o' ho'⟩
    · obtain ⟨g, hg, hgo⟩ := h o' ho'
      exact ⟨g, List.mem_cons_of_mem _ hg, hgo⟩

theorem forall₂_stems_none (fs : List DumpFile) (rs : List Record) :
    List.Forall₂ (Stems fs) (List.replicate rs.length none) rs := by
  induction rs with
  | nil => exact .nil
  | cons r rs ih => exact .cons (stems_none fs r) ih

theorem Stream.forall₂_origins (s : Stream) :
    List.Forall₂ (Stems s.files) s.origins s.records := by
  have hends := forall₂_stems_none s.files (s.ends.map Spcl.encode)
  rw [List.length_map] at hends
  exact .cons (stems_none _ _) (List.rel_append (forall₂_stems_none _ _)
    (List.rel_append (forall₂_fileOrigins _ _ s.files) hends))

/-- The files with the record numbers of their `TS_INODE` headers. -/
def layoutFrom (n : ℕ) : List DumpFile → List (ℕ × DumpFile)
  | [] => []
  | f :: fs => (n, f) :: layoutFrom (n + f.records.length) fs

def Stream.layout (s : Stream) : List (ℕ × DumpFile) := layoutFrom s.filesAt s.files

theorem layoutFrom_spec {n m : ℕ} {f : DumpFile} {fs : List DumpFile} (h : (m, f) ∈ layoutFrom n fs) :
    f ∈ fs ∧ n ≤ m ∧ (fs.flatMap DumpFile.records)[m - n]? = some f.first.spcl.encode := by
  induction fs generalizing n with
  | nil => cases h
  | cons g fs ih =>
    obtain h | h := List.mem_cons.mp h
    · obtain ⟨rfl, rfl⟩ : m = n ∧ f = g := by simpa using h
      refine ⟨List.mem_cons_self, le_rfl, ?_⟩
      rw [Nat.sub_self]
      rfl
    · obtain ⟨hf, hle, hget⟩ := ih h
      refine ⟨List.mem_cons_of_mem _ hf, by omega, ?_⟩
      rw [List.flatMap_cons, List.getElem?_append_right (by omega), Nat.sub_sub, hget]

namespace Stream

variable {s : Stream}

theorem layout_spec {m : ℕ} {f : DumpFile} (h : (m, f) ∈ s.layout) :
    f ∈ s.files ∧ s.records[m]? = some f.first.spcl.encode := by
  obtain ⟨hf, hle, hget⟩ := layoutFrom_spec h
  refine ⟨hf, ?_⟩
  have hlen : (s.volume.encode :: s.bitMaps.flatMap BitMap.records).length = s.filesAt := by
    rw [filesAt, List.length_cons]
    omega
  rw [records, ← List.cons_append, List.getElem?_append_right (by omega), hlen,
    List.getElem?_append_left, hget]
  by_contra hlt
  rw [List.getElem?_eq_none (not_lt.mp hlt)] at hget
  cases hget

/-- The `TS_INODE` headers are those of the files. -/
theorem inode_header {r : Record} (hr : r ∈ s.records) {h : Header} (hh : parseHeader r = some h)
    (ht : h.type = tsInode) : ∃ f ∈ s.files, r = f.first.spcl.encode := by
  have hother : ∀ p : Spcl, r = p.encode → h.type = p.type.toInt := by
    intro p hp
    rw [hp, p.parseHeader_encode] at hh
    rw [← Option.some.inj hh]
    rfl
  obtain hr | hr := List.mem_cons.mp hr
  · rw [hother _ hr, s.volume_type] at ht
    exact absurd ht (by decide)
  obtain hr | hr := List.mem_append.mp hr
  · exact absurd ht (BitMap.not_inode r hr h hh)
  obtain hr | hr := List.mem_append.mp hr
  · obtain ⟨f, hf, hr⟩ := List.mem_flatMap.mp hr
    obtain ⟨g, hg, hr⟩ := List.mem_flatMap.mp hr
    obtain hr | hr := List.mem_cons.mp hr
    · obtain rfl | hg := List.mem_cons.mp hg
      · exact ⟨f, hf, hr⟩
      · rw [hother _ hr, f.rest_type g hg] at ht
        exact absurd ht (by decide)
    · have hdata := g.data_not_header r (by simpa using hr)
      rw [hh] at hdata
      cases hdata
  · obtain ⟨e, he, rfl⟩ := List.mem_map.mp hr
    rw [hother e rfl, s.ends_type e he] at ht
    exact absurd ht (by decide)

end Stream

/-- Block `lb` of the bytes of a file; the last one may be short. -/
def fileBlock (data : List Byte) (lb : ℕ) : List Byte := (data.drop (512 * lb)).take 512

theorem fileBlock_take (data : List Byte) (size lb : ℕ) :
    fileBlock (data.take size) lb = (fileBlock data lb).take (size - 512 * lb) := by
  rw [fileBlock, fileBlock, List.drop_take, List.take_take, List.take_take, Nat.min_comm]

/-- A file read back from blocks that are all its own has no other bytes than its own and
zeros. -/
theorem filedata_fileBlock {inodes : Inodes} {blocks : Blocks} {f : DumpFile}
    (hd : inodes.get? f.inum = some f.dinode)
    (hb : ∀ lb r, blockAt blocks f.inum lb = some r → entry f.blocks lb = some r) :
    ∃ data, filedata f.inum inodes blocks = some data ∧
      ∀ lb, fileBlock data lb = fileBlock f.contents lb ∨ ∀ b ∈ fileBlock data lb, b = 0 := by
  simp only [filedata, hd, Option.map_some, Option.some.injEq, exists_eq_left', DumpFile.contents,
    fileBlock_take]
  intro lb
  have hlen : ∀ o : Option Record, ((o.map Record.bytes).getD (List.replicate 512 0)).length = 512 := by
    intro o
    cases o with
    | none => exact List.length_replicate
    | some r => exact r.length_eq
  have hentry : f.blocks.getD lb none = entry f.blocks lb := by
    rw [entry, List.getD_eq_getElem?_getD]
    cases f.blocks[lb]? <;> rfl
  rw [fileBlock, fileBlock, take_drop_flatMap_range _ _ _ _ fun i ↦ hlen _,
    take_drop_flatMap_range _ _ _ _ fun i ↦ hlen _, hentry]
  cases h : blockAt blocks f.inum lb with
  | none =>
    right
    intro b hmem
    have hmem' := List.mem_of_mem_take hmem
    split at hmem'
    · exact List.eq_of_mem_replicate hmem'
    · cases hmem'
  | some r =>
    left
    rw [hb lb r h]

/-- What a loss of records may do to a dump: no data record is stored at a place that is not
its own, and each file whose `TS_INODE` header is left reads back as its own blocks and zeros. -/
structure LossStaysLocal (s : SolidStream) (keep : ℕ → Bool) : Prop where
  placed : ∀ i, Faithful (s.origins[i]?).join
    ((walkTo ((tapeOf s.records).filterKeys keep) i).placement
      (((tapeOf s.records).filterKeys keep).get? i))
  readable : ∀ n f, (n, f) ∈ s.layout → keep n →
    ∃ p data, parse ((tapeOf s.records).filterKeys keep) = some p ∧
      filedata f.inum p.inodes p.blocks = some data ∧
      ∀ lb, fileBlock data lb = fileBlock f.contents lb ∨ ∀ b ∈ fileBlock data lb, b = 0

theorem parse_of_mem {tape : Dict ℕ Record} {n : ℕ} (h : n ∈ tape) :
    ∃ last p, parse tape = some p ∧ last ∈ tape ∧ n ≤ last ∧
      p.inodes = (walkTo tape (last + 1)).inodes ∧ p.blocks = (walkTo tape (last + 1)).blocks := by
  have hkey := Dict.mem_keys.mpr h
  cases hmax : tape.keys.max? with
  | none =>
    rw [List.max?_eq_none_iff] at hmax
    rw [hmax] at hkey
    cases hkey
  | some last =>
    obtain ⟨hlast, hle⟩ := List.max?_eq_some_iff.mp hmax
    refine ⟨last, _, by rw [parse, hmax, Option.map_some], Dict.mem_keys.mp hlast, hle n hkey,
      rfl, rfl⟩

namespace SolidStream

variable (s : SolidStream) (keep : ℕ → Bool)

theorem faithful_iff_anchored :
    (∀ i, Faithful (s.origins[i]?).join
      ((walkTo ((tapeOf s.records).filterKeys keep) i).placement
        (((tapeOf s.records).filterKeys keep).get? i))) ↔
      ∀ o, some o ∈ s.origins → o.Anchored keep := by
  have htrace := s.trace_records keep
  have hlen := htrace.length_eq
  have hget := fun i h h' ↦ htrace.get (i := i) h h'
  simp only [Walk.placement_walkTo]
  constructor
  · intro hf o ho
    obtain ⟨i, hi, hio⟩ := List.mem_iff_getElem.mp ho
    have h := hf i
    rw [List.getElem?_eq_getElem hi, List.getElem?_eq_getElem (hlen ▸ hi)] at h
    exact (hget i hi (hlen ▸ hi)).mp h o hio
  · intro ha i
    by_cases hi : i < s.origins.length
    · rw [List.getElem?_eq_getElem hi, List.getElem?_eq_getElem (hlen ▸ hi)]
      exact (hget i hi (hlen ▸ hi)).mpr fun o ho ↦ ha o (ho ▸ List.getElem_mem hi)
    · rw [List.getElem?_eq_none (not_lt.mp hi), List.getElem?_eq_none (by omega)]
      exact fun q hq ↦ absurd hq (Option.some_ne_none _).symm

variable {s keep}

theorem dinode_of_header {f : DumpFile} (hf : f ∈ s.files) {r : Record} (hr : r ∈ s.records)
    {h : Header} (hh : parseHeader r = some h) (ht : h.type = tsInode) (hino : h.inum = f.inum) :
    r.dinode = f.dinode := by
  obtain ⟨g, hg, rfl⟩ := Stream.inode_header hr hh ht
  rw [g.first.spcl.parseHeader_encode] at hh
  obtain rfl := Option.some.inj hh
  obtain rfl := List.inj_on_of_nodup_map s.nodup_inums hg hf hino
  exact Spcl.dinode_encode _

/-- The blocks a decoded tape has for a file are the file's own, if all records were stored
at their places. -/
theorem blockAt_of_faithful
    (hp : ∀ i, Faithful (s.origins[i]?).join
      ((walkTo ((tapeOf s.records).filterKeys keep) i).placement
        (((tapeOf s.records).filterKeys keep).get? i)))
    {f : DumpFile} (hf : f ∈ s.files) {k : ℕ} (hk : k ≤ s.records.length) {lb : ℕ} {r : Record}
    (h : blockAt (walkTo ((tapeOf s.records).filterKeys keep) k).blocks f.inum lb = some r) :
    entry f.blocks lb = some r := by
  rw [Walk.walkTo_filterKeys keep _ k hk, survivors_take] at h
  obtain h | ⟨i, n, hi, ht⟩ := Walk.blockAt_foldl h
  · cases h
  rw [Walk.trace_take, List.getElem?_take] at ht
  rw [List.getElem?_take, getElem?_survivors] at hi
  by_cases hik : i < k
  swap
  · rw [if_neg hik] at ht
    cases ht
  rw [if_pos hik] at ht hi
  have hfaith := hp i (f.inum, lb) (by rw [Walk.placement_walkTo, ht]; rfl)
  obtain ⟨o, ho, hq⟩ := hfaith
  obtain ⟨hinum, rfl⟩ := Prod.mk.inj hq
  have hlen := s.forall₂_origins.length_eq
  have hir : i < s.records.length := by omega
  have hrec : s.records[i] = r := by
    rw [List.getElem?_eq_getElem hir, Option.map_some] at hi
    have hr := (Prod.mk.inj (Option.some.inj hi)).1
    split at hr
    · exact Option.some.inj hr
    · cases hr
  have hstems := s.forall₂_origins.get (i := i) (by omega) hir
  rw [List.getElem?_eq_getElem (by omega)] at ho
  obtain ⟨g, hg, hgo, hentry⟩ := hstems o ho
  obtain rfl := List.inj_on_of_nodup_map s.nodup_inums hg hf (hgo.trans hinum.symm)
  rw [hentry]
  exact congrArg some hrec

theorem readable_of_faithful
    (hp : ∀ i, Faithful (s.origins[i]?).join
      ((walkTo ((tapeOf s.records).filterKeys keep) i).placement
        (((tapeOf s.records).filterKeys keep).get? i)))
    {n : ℕ} {f : DumpFile} (hn : (n, f) ∈ s.layout) (hkeep : keep n = true) :
    ∃ p data, parse ((tapeOf s.records).filterKeys keep) = some p ∧
      filedata f.inum p.inodes p.blocks = some data ∧
      ∀ lb, fileBlock data lb = fileBlock f.contents lb ∨ ∀ b ∈ fileBlock data lb, b = 0 := by
  obtain ⟨hf, hrec⟩ := Stream.layout_spec hn
  have hmem : ∀ m, m ∈ (tapeOf s.records).filterKeys keep ↔ keep m = true ∧ m < s.records.length := by
    intro m
    rw [Dict.mem_def, Dict.get?_filterKeys, get?_tapeOf]
    split <;> simp_all
  have hlt : n < s.records.length := (List.getElem?_eq_some_iff.mp hrec).1
  obtain ⟨last, p, hparse, hlast, hle, hinodes, hblocks⟩ := parse_of_mem ((hmem n).mpr ⟨hkeep, hlt⟩)
  have hk : last + 1 ≤ s.records.length := ((hmem last).mp hlast).2
  have hd : p.inodes.get? f.inum = some f.dinode := by
    rw [hinodes, Walk.walkTo_filterKeys keep _ _ hk, survivors_take]
    refine Walk.get?_inodes_foldl ?_ (.inr ⟨f.first.spcl.encode, n, f.first.spcl.header, ?_,
      f.first.spcl.parseHeader_encode, f.first_type, rfl⟩)
    · intro r m hr h hh ht hino
      obtain ⟨i, hi⟩ := List.mem_iff_getElem?.mp (List.mem_of_mem_take hr)
      rw [getElem?_survivors] at hi
      obtain ⟨r', hr', hpair⟩ := Option.map_eq_some_iff.mp hi
      have hrr : r' = r := by
        have hr := (Prod.mk.inj hpair).1
        split at hr
        · exact Option.some.inj hr
        · cases hr
      exact dinode_of_header hf (hrr ▸ List.mem_of_getElem? hr') hh ht hino
    · refine List.mem_of_getElem? (i := n) ?_
      rw [List.getElem?_take, if_pos (by omega), getElem?_survivors, hrec, Option.map_some,
        if_pos hkeep]
  obtain ⟨data, hdata, hown⟩ := filedata_fileBlock hd fun lb r h ↦
    blockAt_of_faithful hp hf hk (hblocks ▸ h)
  exact ⟨p, data, hparse, hdata, hown⟩

end SolidStream

/-- A loss stays local exactly when every record that finds a slot is anchored. -/
theorem loss_stays_local (s : SolidStream) (keep : ℕ → Bool) :
    LossStaysLocal s keep ↔ ∀ o, some o ∈ s.origins → o.Anchored keep := by
  rw [← s.faithful_iff_anchored keep]
  exact ⟨fun h ↦ h.placed, fun h ↦ ⟨h, fun n f hn hk ↦ SolidStream.readable_of_faithful h hn hk⟩⟩

/-- Inode 3 with three blocks, each described by a header of its own. -/
def threeHeaders : DumpFile where
  first := Segment.write 2 3 threeBlocks length_threeBlocks [some (filled 1)] (length_slot_le _)
    filled_one_not_header
  rest := [Segment.write 4 3 threeBlocks length_threeBlocks [some (filled 2)] length_filled_two_le
      filled_two_not_header,
    Segment.write 4 3 threeBlocks length_threeBlocks [some (filled 3)] (length_slot_le _)
      fun _ hr ↦ filled_not_header (b := 3) (by decide) (by simp) hr]
  first_type := rfl
  rest_type := by
    intro s hs
    obtain rfl | rfl : s = _ ∨ s = _ := by simpa using hs
    · rfl
    · rfl

def solidDump : SolidStream where
  volume := volumeHeader 1
  bitMaps := []
  files := [threeHeaders]
  ends := [volumeHeader 5]
  volume_type := volumeHeader_tape
  ends_type := volumeHeader_end
  nodup_inums := List.nodup_singleton _
  solid := by
    intro f hf g hg
    obtain rfl := List.mem_singleton.mp hf
    obtain rfl | rfl | rfl : g = _ ∨ g = _ ∨ g = _ := by
      simpa [DumpFile.segments, threeHeaders] using hg
    all_goals exact fun h ↦ absurd (List.mem_singleton.mp h) (Option.some_ne_none _).symm

/-- Without the first `TS_ADDR` header, record 3, the last block is stored as the middle one. -/
theorem solidDump_loss_shifts : ¬ LossStaysLocal solidDump (· ≠ 3) := by
  rw [loss_stays_local]
  intro h
  have ha := h ⟨6, 3, 1, 5, [1, 3], []⟩ (by
    refine List.mem_of_getElem? (i := 6) ?_
    rfl)
  exact absurd (ha rfl rfl 3 (by decide)) (by decide)

end S8000.Dump
