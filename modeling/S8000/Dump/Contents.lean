import S8000.Dump.Loss

namespace S8000.Dump

open Foundation Foundation.Bytes

/-- Where the decoder stores record `n` of a tape: the inode and the logical block. -/
def placementAt (rs : List Record) (n : ℕ) : Option (ℕ × ℕ) :=
  (walkTo (tapeOf rs) n).placement ((tapeOf rs).get? n)

/-- Two tapes decode alike but for the bytes of the blocks. -/
structure SameStructure (rs rs' : List Record) : Prop where
  parsed : ∃ p p', parse (tapeOf rs) = some p ∧ parse (tapeOf rs') = some p' ∧
    p'.tapehdr = p.tapehdr ∧ p'.inodes = p.inodes ∧ p'.order = p.order
  placed : ∀ n, placementAt rs' n = placementAt rs n

/-- The records from number `n` on with other data: what is no header is replaced. -/
def refillFrom (contents : ℕ → Record) (n : ℕ) (rs : List Record) : List Record :=
  (rs.zipIdx n).map fun p ↦ if parseHeader p.1 = none then contents p.2 else p.1

section Refill

variable (contents : ℕ → Record)

theorem refillFrom_cons (n : ℕ) (r : Record) (rs : List Record) :
    refillFrom contents n (r :: rs) =
      (if parseHeader r = none then contents n else r) :: refillFrom contents (n + 1) rs := rfl

theorem refillFrom_append (n : ℕ) (a b : List Record) :
    refillFrom contents n (a ++ b) =
      refillFrom contents n a ++ refillFrom contents (n + a.length) b := by
  rw [refillFrom, List.zipIdx_append, List.map_append, refillFrom, refillFrom]

theorem getElem?_refillFrom (rs : List Record) (n : ℕ) :
    (refillFrom contents 0 rs)[n]? =
      rs[n]?.map fun r ↦ if parseHeader r = none then contents n else r := by
  by_cases hn : n < rs.length
  · simp [refillFrom, hn]
  · simp [refillFrom, List.getElem?_eq_none (not_lt.mp hn)]

theorem length_refillFrom (n : ℕ) (rs : List Record) :
    (refillFrom contents n rs).length = rs.length := by
  simp [refillFrom]

end Refill

namespace Stream

/-- The same headers in the same places around other contents. -/
def refill (s : Stream) (contents : ℕ → Record) : List Record := refillFrom contents 0 s.records

/-- The number of the first record behind the bit maps. -/
def mapsEnd (s : Stream) : ℕ := 1 + (s.bitMaps.flatMap BitMap.records).length

/-- Where the stream has data, the contents have a record that reads as a header. -/
def Spoofed (s : Stream) (contents : ℕ → Record) (n : ℕ) (h : Header) : Prop :=
  (∃ r, s.records[n]? = some r ∧ parseHeader r = none) ∧ parseHeader (contents n) = some h

/-- No block of a file reads as a header, no record of a bit map as the header of an inode,
and the last one that reads as a volume header, if any, repeats the one of the volume. -/
structure Harmless (s : Stream) (contents : ℕ → Record) : Prop where
  blocks : ∀ n h, s.Spoofed contents n h → n < s.mapsEnd
  inodes : ∀ n h, s.Spoofed contents n h → h.type ≠ tsInode
  tape : ∀ n h, s.Spoofed contents n h → h.type = tsTape →
    (∀ m h', n < m → s.Spoofed contents m h' → h'.type ≠ tsTape) → h = s.volume.header

end Stream

namespace Walk

section Totals

/-- The effect of one record on the tape header. -/
def lastTape (t : Option Header) (r : Record) : Option Header :=
  match parseHeader r with
  | some h => if h.type = tsTape then some h else t
  | none => t

/-- The record is the header of an inode. -/
def startsInode (r : Record) : Bool :=
  match parseHeader r with
  | some h => h.type = tsInode
  | none => false

theorem slot_totals (st : Walk) : st.slot.2.tapehdr = st.tapehdr ∧ st.slot.2.order = st.order := by
  rw [slot]
  split <;> exact ⟨rfl, rfl⟩

theorem data_totals (st : Walk) (r : Record) (n : ℕ) :
    (st.data r n).tapehdr = st.tapehdr ∧ (st.data r n).order = st.order := by
  have h := st.slot_totals
  rw [data]
  split <;> rename_i hslot <;> rw [hslot] at h <;> exact h

theorem step_tapehdr (st : Walk) (r : Record) (n : ℕ) :
    (st.step (some r, n)).tapehdr = lastTape st.tapehdr r := by
  rw [lastTape]
  cases hh : parseHeader r with
  | none => rw [step_data hh, (st.data_totals r n).1]
  | some h =>
    rw [step_header hh, header]
    by_cases ht : h.type = tsTape
    · simp only [if_pos ht]
    · simp only [if_neg ht]
      split
      · rfl
      · split <;> rfl

theorem length_order_step (st : Walk) (r : Record) (n : ℕ) :
    (st.step (some r, n)).order.length = st.order.length + (startsInode r).toNat := by
  rw [startsInode]
  cases hh : parseHeader r with
  | none => rw [step_data hh, (st.data_totals r n).2]; rfl
  | some h =>
    have hne : tsTape ≠ tsInode := by decide
    rw [step_header hh, header]
    by_cases ht : h.type = tsTape
    · rw [if_pos ht]
      simp [ht, hne]
    · rw [if_neg ht]
      by_cases hi : h.type = tsInode
      · simp [hi]
      · simp only [if_neg hi]
        split <;> simp [hi]

theorem fold_tapehdr (st : Walk) (rs : List Record) (n : ℕ) :
    (((rs.map some).zipIdx n).foldl step st).tapehdr = rs.foldl lastTape st.tapehdr := by
  induction rs generalizing st n with
  | nil => rfl
  | cons r rs ih => rw [fold_records_cons, ih, step_tapehdr, List.foldl_cons]

theorem length_order_fold (st : Walk) (rs : List Record) (n : ℕ) :
    (((rs.map some).zipIdx n).foldl step st).order.length =
      st.order.length + rs.countP startsInode := by
  induction rs generalizing st n with
  | nil => rfl
  | cons r rs ih =>
    rw [fold_records_cons, ih, length_order_step, List.countP_cons]
    cases startsInode r
    · simp
    · simp [Nat.add_assoc, Nat.add_comm 1]

/-- The last volume header of a tape decides. -/
theorem foldl_lastTape (t : Option Header) (rs : List Record) :
    ((∀ r ∈ rs, ∀ h, parseHeader r = some h → h.type ≠ tsTape) ∧ rs.foldl lastTape t = t) ∨
      ∃ (n : ℕ) (r : Record) (h : Header), rs[n]? = some r ∧ parseHeader r = some h ∧ h.type = tsTape ∧
        (∀ (m : ℕ) r' h', n < m → rs[m]? = some r' → parseHeader r' = some h' → h'.type ≠ tsTape) ∧
        rs.foldl lastTape t = some h := by
  induction rs generalizing t with
  | nil => exact .inl ⟨by simp, rfl⟩
  | cons r rs ih =>
    rw [List.foldl_cons]
    rcases ih (lastTape t r) with ⟨hnone, hfold⟩ | ⟨n, r', h, hr', hh, ht, hlast, hfold⟩
    · by_cases hr : ∃ h, parseHeader r = some h ∧ h.type = tsTape
      · obtain ⟨h, hh, ht⟩ := hr
        refine .inr ⟨0, r, h, rfl, hh, ht, fun m r' h' hm hr' ↦ ?_, ?_⟩
        · obtain ⟨m, rfl⟩ := Nat.exists_eq_succ_of_ne_zero (by omega : m ≠ 0)
          exact hnone r' (List.mem_of_getElem? hr') h'
        · rw [hfold, lastTape, hh]
          exact if_pos ht
      · have hstep : lastTape t r = t := by
          rw [lastTape]
          cases hh : parseHeader r with
          | none => rfl
          | some h => simp only [if_neg fun ht ↦ hr ⟨h, hh, ht⟩]
        refine .inl ⟨fun r' hr' h hh ht ↦ ?_, hfold.trans hstep⟩
        rcases List.mem_cons.mp hr' with rfl | hmem
        · exact hr ⟨h, hh, ht⟩
        · exact hnone r' hmem h hh ht
    · refine .inr ⟨n + 1, r', h, hr', hh, ht, fun m r'' h' hm hr'' ↦ ?_, hfold⟩
      obtain ⟨m, rfl⟩ := Nat.exists_eq_succ_of_ne_zero (by omega : m ≠ 0)
      exact hlast m r'' h' (by omega) hr''

end Totals

section Parallel

/-- The loop is at the same place of the same file; only stored bytes may differ. -/
structure Parallel (st st' : Walk) : Prop where
  inodes : st'.inodes = st.inodes
  order : st'.order = st.order
  cur : st'.cur = st.cur
  slot : st.cur = none ∨ Agree st st'

variable {st st' : Walk}

theorem Parallel.slot_eq (h : Parallel st st') : st'.slot.1 = st.slot.1 := by
  rcases h.slot with hn | ha
  · rw [slot_of_cur_none hn, slot_of_cur_none (h.cur.trans hn)]
  · rw [Walk.slot, Walk.slot, ha.cur, ha.amap, ha.ai, ha.logical]
    cases st.cur <;> rfl

theorem Parallel.after_header (h : Parallel st st') (r : Record) (hd : Header) :
    Parallel (st.header r hd) (st'.header r hd) := by
  rw [header, header]
  split
  · exact ⟨h.inodes, h.order, rfl, .inl rfl⟩
  split
  · exact ⟨by rw [h.inodes], by rw [h.order], rfl, .inr ⟨rfl, rfl, rfl, rfl⟩⟩
  split
  · exact ⟨h.inodes, h.order, h.cur, h.slot.imp_right fun ha ↦ ⟨ha.cur, rfl, rfl, ha.logical⟩⟩
  · exact ⟨h.inodes, h.order, rfl, .inl rfl⟩

theorem Parallel.after_data (h : Parallel st st') (r r' : Record) (n : ℕ) :
    Parallel (st.data r n) (st'.data r' n) := by
  rcases h.slot with hn | ha
  · rw [data_of_slot_none (slot_of_cur_none hn), data_of_slot_none (slot_of_cur_none (h.cur.trans hn))]
    exact ⟨h.inodes, h.order, h.cur, .inl hn⟩
  · rw [data, data, Walk.slot, Walk.slot, ha.cur, ha.amap, ha.ai, ha.logical]
    cases hc : st.cur with
    | none => exact ⟨h.inodes, h.order, h.cur, .inl hc⟩
    | some ino =>
      simp only
      cases hs : (takeSlot st.amap st.ai st.logical).1 with
      | none => exact ⟨h.inodes, h.order, rfl, .inr ⟨rfl, rfl, rfl, rfl⟩⟩
      | some lb => exact ⟨h.inodes, h.order, rfl, .inr ⟨rfl, rfl, rfl, rfl⟩⟩

/-- Where no data reads as a header, other contents go to the same places. -/
theorem Parallel.run (h : Parallel st st') (contents : ℕ → Record) (rs : List Record) (n : ℕ)
    (hplain : ∀ p ∈ rs.zipIdx n, parseHeader p.1 = none → parseHeader (contents p.2) = none) :
    Parallel (((rs.map some).zipIdx n).foldl step st)
        ((((refillFrom contents n rs).map some).zipIdx n).foldl step st') ∧
      st'.trace (((refillFrom contents n rs).map some).zipIdx n) =
        st.trace ((rs.map some).zipIdx n) := by
  induction rs generalizing st st' n with
  | nil => exact ⟨h, rfl⟩
  | cons r rs ih =>
    have hrest : ∀ p ∈ rs.zipIdx (n + 1), parseHeader p.1 = none → parseHeader (contents p.2) = none :=
      fun p hp ↦ hplain p (List.mem_cons_of_mem _ hp)
    rw [refillFrom_cons, fold_records_cons, fold_records_cons, List.map_cons, List.map_cons,
      List.zipIdx_cons, List.zipIdx_cons, trace, trace]
    cases hh : parseHeader r with
    | none =>
      have hc := hplain (r, n) List.mem_cons_self hh
      rw [if_pos rfl, step_data hh, step_data hc]
      obtain ⟨hpar, htrace⟩ := ih (h.after_data r (contents n) n) (n + 1) hrest
      refine ⟨hpar, ?_⟩
      rw [htrace, placement, placement, if_pos hh, if_pos hc, h.slot_eq]
    | some hd =>
      rw [if_neg (by simp), step_header hh, step_header hh]
      obtain ⟨hpar, htrace⟩ := ih (h.after_header r hd) (n + 1) hrest
      refine ⟨hpar, ?_⟩
      rw [htrace, placement, placement, if_neg (by simp [hh]), if_neg (by simp [hh])]

end Parallel

/-- Without the header of an inode nothing is stored. -/
theorem run_idle (st : Walk) (hc : st.cur = none) (rs : List Record)
    (hr : ∀ r ∈ rs, ∀ h, parseHeader r = some h → h.type ≠ tsInode) (n : ℕ) :
    (((rs.map some).zipIdx n).foldl step st).inodes = st.inodes ∧
      (((rs.map some).zipIdx n).foldl step st).order = st.order ∧
      (((rs.map some).zipIdx n).foldl step st).cur = none ∧
      st.trace ((rs.map some).zipIdx n) = List.replicate rs.length none := by
  induction rs generalizing st n with
  | nil => exact ⟨rfl, rfl, hc, rfl⟩
  | cons r rs ih =>
    have hrest : ∀ r ∈ rs, ∀ h, parseHeader r = some h → h.type ≠ tsInode :=
      fun r' hr' ↦ hr r' (List.mem_cons_of_mem _ hr')
    have hstep : (st.step (some r, n)).inodes = st.inodes ∧ (st.step (some r, n)).order = st.order ∧
        (st.step (some r, n)).cur = none ∧ st.placement (some r) = none := by
      cases hh : parseHeader r with
      | none =>
        rw [step_data hh, data_of_slot_none (slot_of_cur_none hc), placement, if_pos hh,
          slot_of_cur_none hc]
        exact ⟨rfl, rfl, hc, rfl⟩
      | some h =>
        have hplace : st.placement (some r) = none := by simp [placement, hh]
        rw [step_header hh, header, hplace]
        split
        · exact ⟨rfl, rfl, rfl, rfl⟩
        rw [if_neg (hr r List.mem_cons_self h hh)]
        split
        · exact ⟨rfl, rfl, hc, rfl⟩
        · exact ⟨rfl, rfl, rfl, rfl⟩
    obtain ⟨hi, ho, hcur, hplace⟩ := hstep
    obtain ⟨hi', ho', hcur', htrace⟩ := ih _ hcur hrest (n + 1)
    rw [fold_records_cons, List.map_cons, List.zipIdx_cons, trace, htrace, hplace]
    exact ⟨hi'.trans hi, ho'.trans ho, hcur', rfl⟩

theorem length_trace (st : Walk) (l : List (Option Record × ℕ)) : (st.trace l).length = l.length := by
  induction l generalizing st with
  | nil => rfl
  | cons p l ih => rw [trace, List.length_cons, ih, List.length_cons]

/-- The data of a segment finds a slot, whatever it is. -/
theorem trace_slots_isSome (st : Walk) (ino : ℕ) (hc : st.cur = some ino) (s : List (Option Record))
    (m : List Byte) (k : ℕ) (hm : Marks m s)
    (hd : st.amap.drop st.ai = List.replicate k 0 ++ m)
    (hs : ∀ r, some r ∈ s → parseHeader r = none) (n : ℕ) :
    ∀ p ∈ st.trace (((s.filterMap id).map some).zipIdx n), p.isSome := by
  induction hm generalizing st k n with
  | nil => simp [trace]
  | @cons b o m s hb hm ih =>
    cases o with
    | none =>
      obtain rfl : b = 0 := hb.mpr rfl
      have hd' : st.amap.drop st.ai = List.replicate (k + 1) 0 ++ m := by
        rw [hd, List.replicate_succ', List.append_assoc]
        rfl
      exact ih st hc (k + 1) hd' (fun r hr ↦ hs r (List.mem_cons_of_mem _ hr)) n
    | some r =>
      have hr := hs r List.mem_cons_self
      have hslot := slot_of_drop hc (fun h ↦ by simpa using hb.mp h) hd
      have hd' : (st.step (some r, n)).amap.drop (st.step (some r, n)).ai =
          List.replicate 0 0 ++ m := by
        have hlen : (List.replicate k (0 : Byte) ++ [b]).length = k + 1 := by simp
        rw [step_data hr, data, hslot]
        change st.amap.drop (st.ai + k + 1) = m
        rw [Nat.add_assoc, ← List.drop_drop, hd, ← List.singleton_append, ← List.append_assoc,
          ← hlen, List.drop_left]
      have hc' : (st.step (some r, n)).cur = some ino := by
        rw [step_data hr, data, hslot]
        exact hc
      intro p hp
      simp only [List.filterMap_cons, id_eq, List.map_cons, List.zipIdx_cons, trace,
        List.mem_cons] at hp
      rcases hp with rfl | hp
      · rw [placement, if_pos hr, hslot]
        rfl
      · exact ih _ hc' 0 hd' (fun r hr ↦ hs r (List.mem_cons_of_mem _ hr)) (n + 1) p hp

/-- A record that is no header has found a place. -/
def Found (r : Record) (p : Option (ℕ × ℕ)) : Prop := parseHeader r = none → p.isSome

theorem found_segment {st : Walk} (ino : ℕ) (s : Segment) (n : ℕ)
    (hc : (st.step (some s.spcl.encode, n)).cur = some ino)
    (hmap : (st.step (some s.spcl.encode, n)).amap = s.spcl.encode.addrMap)
    (hai : (st.step (some s.spcl.encode, n)).ai = 0) :
    List.Forall₂ Found s.records (st.trace ((s.records.map some).zipIdx n)) := by
  rw [Segment.records, List.map_cons, List.zipIdx_cons, trace]
  refine .cons (fun h ↦ ?_) ?_
  · rw [s.spcl.parseHeader_encode] at h
    cases h
  · have hsome := trace_slots_isSome _ ino hc s.slots s.spcl.encode.addrMap 0 s.marks
      (by rw [hai, hmap]; rfl) s.data_not_header (n + 1)
    rw [List.forall₂_iff_get]
    refine ⟨by simp [length_trace], fun i hi hi' _ ↦ hsome _ (List.get_mem _ _)⟩

theorem found_append {st : Walk} {a b : List Record} {n : ℕ}
    (ha : List.Forall₂ Found a (st.trace ((a.map some).zipIdx n)))
    (hb : List.Forall₂ Found b ((((a.map some).zipIdx n).foldl step st).trace
      ((b.map some).zipIdx (n + a.length)))) :
    List.Forall₂ Found (a ++ b) (st.trace (((a ++ b).map some).zipIdx n)) := by
  rw [List.map_append, List.zipIdx_append, trace_append, List.length_map]
  exact List.rel_append ha hb

theorem found_addrs {st : Walk} (ino : ℕ) (hc : st.cur = some ino) (segs : List Segment)
    (ht : ∀ s ∈ segs, s.spcl.type.toInt = tsAddr) (n : ℕ) :
    List.Forall₂ Found (segs.flatMap Segment.records)
      (st.trace (((segs.flatMap Segment.records).map some).zipIdx n)) := by
  induction segs generalizing st n with
  | nil => exact .nil
  | cons s segs ih =>
    have hs := ht s List.mem_cons_self
    rw [List.flatMap_cons]
    refine found_append (found_segment ino s n ?_ ?_ ?_) (ih ?_ ?_ _)
    · rw [step_addr hs]
      exact hc
    · rw [step_addr hs]
    · rw [step_addr hs]
    · obtain ⟨amap, ai, h⟩ := fold_addr st ino hc s hs n
      rw [h]
      exact hc
    · exact fun s hs ↦ ht s (List.mem_cons_of_mem _ hs)

theorem found_file (st : Walk) (f : DumpFile) (n : ℕ) :
    List.Forall₂ Found f.records (st.trace ((f.records.map some).zipIdx n)) := by
  rw [DumpFile.records, DumpFile.segments, List.flatMap_cons]
  refine found_append (found_segment f.inum f.first n ?_ ?_ ?_)
    (found_addrs f.inum ?_ f.rest f.rest_type _)
  · rw [step_inode]
  · rw [step_inode]
  · rw [step_inode]
  · rw [Segment.records, fold_records_cons, step_inode]
    obtain ⟨ai, h⟩ := fold_slots
      { st with
        inodes := st.inodes.set f.inum f.dinode
        order := st.order ++ [(f.first.spcl.tapea.toNat, f.inum)]
        cur := some f.inum
        amap := f.first.spcl.encode.addrMap
        ai := 0
        logical := 0 } f.inum rfl f.first.slots _ 0 f.first.marks rfl f.first.data_not_header (n + 1)
    rw [h]

theorem found_files (st : Walk) (fs : List DumpFile) (es : List Spcl) (n : ℕ) :
    List.Forall₂ Found (fs.flatMap DumpFile.records ++ es.map Spcl.encode)
      (st.trace (((fs.flatMap DumpFile.records ++ es.map Spcl.encode).map some).zipIdx n)) := by
  induction fs generalizing st n with
  | nil =>
    rw [List.forall₂_iff_get]
    refine ⟨by simp [length_trace], fun i hi _ hnone ↦ ?_⟩
    have hmem : _ ∈ es.map Spcl.encode := List.get_mem _ ⟨i, hi⟩
    obtain ⟨e, -, he⟩ := List.mem_map.mp hmem
    rw [← he, e.parseHeader_encode] at hnone
    cases hnone
  | cons f fs ih =>
    rw [List.flatMap_cons, List.append_assoc]
    exact found_append (found_file st f n) (ih _ _)

end Walk

theorem placementAt_eq (rs : List Record) (n : ℕ) :
    placementAt rs n = ((Walk.trace {} ((rs.map some).zipIdx))[n]?).join := by
  have hall : (tapeOf rs).filterKeys (fun _ ↦ true) = tapeOf rs := by
    apply Dict.ext
    simp [Dict.filterKeys]
  have hsurvive : survivors (fun _ ↦ true) 0 rs = (rs.map some).zipIdx := by
    apply List.ext_getElem
    · simp [survivors]
    · simp [survivors]
  rw [placementAt, ← hsurvive, ← Walk.placement_walkTo, hall]

namespace Stream

variable (s : Stream) (contents : ℕ → Record)

theorem records_eq : s.records = (s.volume.encode :: s.bitMaps.flatMap BitMap.records) ++
    (s.files.flatMap DumpFile.records ++ s.ends.map Spcl.encode) := rfl

/-- Behind the bit maps every data record has a place. -/
theorem isSome_placementAt {n : ℕ} {r : Record} (hn : s.mapsEnd ≤ n) (hr : s.records[n]? = some r)
    (hd : parseHeader r = none) : (placementAt s.records n).isSome := by
  have hlen : (s.volume.encode :: s.bitMaps.flatMap BitMap.records).length = s.mapsEnd := by
    rw [List.length_cons, mapsEnd, Nat.add_comm]
  have hlen' : ∀ st : Walk, (st.trace
      (((s.volume.encode :: s.bitMaps.flatMap BitMap.records).map some).zipIdx 0)).length =
        s.mapsEnd := fun st ↦ by
    rw [Walk.length_trace, List.length_zipIdx, List.length_map, hlen]
  rw [placementAt_eq, records_eq, List.map_append, List.zipIdx_append, Walk.trace_append,
    List.getElem?_append_right (by rw [hlen']; exact hn), hlen']
  rw [records_eq, List.getElem?_append_right (by rw [hlen]; exact hn), hlen] at hr
  generalize (((s.volume.encode :: s.bitMaps.flatMap BitMap.records).map some).zipIdx 0).foldl
    Walk.step {} = st
  have hfound := Walk.found_files st s.files s.ends
    (0 + ((s.volume.encode :: s.bitMaps.flatMap BitMap.records).map some).length)
  obtain ⟨hi, rfl⟩ := List.getElem?_eq_some_iff.mp hr
  have hi' : n - s.mapsEnd < (st.trace (((s.files.flatMap DumpFile.records ++
      s.ends.map Spcl.encode).map some).zipIdx
        (0 + ((s.volume.encode :: s.bitMaps.flatMap BitMap.records).map some).length))).length := by
    rw [← hfound.length_eq]
    exact hi
  rw [List.getElem?_eq_getElem hi']
  exact (List.forall₂_iff_get.mp hfound).2 _ hi hi' hd

/-- Only the first record is a volume header. -/
theorem not_tape_of_pos {n : ℕ} {r : Record} {h : Header} (hn : 0 < n)
    (hr : s.records[n]? = some r) (hh : parseHeader r = some h) : h.type ≠ tsTape := by
  have hencode : ∀ e : Spcl, e.type.toInt ≠ tsTape → r = e.encode → h.type ≠ tsTape := by
    rintro e he rfl
    obtain rfl := Option.some.inj (e.parseHeader_encode.symm.trans hh)
    exact he
  have hdata : parseHeader r = none → h.type ≠ tsTape := by
    intro hnone
    rw [hnone] at hh
    cases hh
  obtain ⟨n, rfl⟩ := Nat.exists_eq_succ_of_ne_zero (by omega : n ≠ 0)
  have hmem : r ∈ s.bitMaps.flatMap BitMap.records ++
      (s.files.flatMap DumpFile.records ++ s.ends.map Spcl.encode) :=
    List.mem_of_getElem? (i := n) hr
  rcases List.mem_append.mp hmem with hm | hm
  · obtain ⟨m, -, hm⟩ := List.mem_flatMap.mp hm
    rcases List.mem_cons.mp hm with he | hm
    · refine hencode m.spcl ?_ he
      rcases m.type_eq with ht | ht <;> rw [ht] <;> decide
    · exact hdata (m.map_not_header r hm)
  rcases List.mem_append.mp hm with hm | hm
  · obtain ⟨f, -, hm⟩ := List.mem_flatMap.mp hm
    obtain ⟨g, hg, hm⟩ := List.mem_flatMap.mp hm
    rcases List.mem_cons.mp hm with he | hm
    · refine hencode g.spcl ?_ he
      rcases List.mem_cons.mp hg with rfl | hg
      · rw [f.first_type]
        decide
      · rw [f.rest_type g hg]
        decide
    · obtain ⟨o, ho, hor⟩ := List.mem_filterMap.mp hm
      obtain rfl : o = some r := hor
      exact hdata (g.data_not_header r ho)
  · obtain ⟨e, he, rfl⟩ := List.mem_map.mp hm
    refine hencode e ?_ rfl
    rw [s.ends_type e he]
    decide

variable {s contents}

theorem spoofed_of_refill {n : ℕ} {r r' : Record} {h : Header} (hr : s.records[n]? = some r)
    (hr' : (s.refill contents)[n]? = some r') (hh : parseHeader r' = some h) :
    parseHeader r = some h ∨ s.Spoofed contents n h := by
  rw [refill, getElem?_refillFrom, hr, Option.map_some, Option.some.injEq] at hr'
  subst hr'
  cases hd : parseHeader r with
  | none =>
    rw [if_pos hd] at hh
    exact .inr ⟨⟨r, hr, hd⟩, hh⟩
  | some h' =>
    rw [if_neg (by simp [hd]), hd] at hh
    exact .inl hh

theorem refill_of_spoofed {n : ℕ} {h : Header} (hs : s.Spoofed contents n h) :
    (s.refill contents)[n]? = some (contents n) := by
  obtain ⟨⟨r, hr, hd⟩, -⟩ := hs
  rw [refill, getElem?_refillFrom, hr, Option.map_some, if_pos hd]

theorem refill_zero (s : Stream) (contents : ℕ → Record) :
    (s.refill contents)[0]? = some s.volume.encode := by
  have h0 : s.records[0]? = some s.volume.encode := rfl
  rw [refill, getElem?_refillFrom, h0, Option.map_some, if_neg (by simp [s.volume.parseHeader_encode])]

/-- The volume header is the last one that reads as such. -/
theorem tape_iff :
    (s.refill contents).foldl Walk.lastTape none = some s.volume.header ↔
      ∀ n h, s.Spoofed contents n h → h.type = tsTape →
        (∀ m h', n < m → s.Spoofed contents m h' → h'.type ≠ tsTape) → h = s.volume.header := by
  have hlen : (s.refill contents).length = s.records.length := length_refillFrom contents 0 _
  rcases Walk.foldl_lastTape none (s.refill contents) with ⟨hnone, -⟩ | ⟨n, r, h, hr, hh, ht, hlast, hfold⟩
  · exact absurd s.volume_type (hnone _ (List.mem_of_getElem? (s.refill_zero contents)) _ s.volume.parseHeader_encode)
  rw [hfold, Option.some.injEq]
  constructor
  · intro hvol m h' hs' ht' hlast'
    -- the two last volume headers are one
    have hm : m = n := by
      rcases lt_trichotomy m n with hlt | heq | hgt
      · obtain ⟨r₀, hr₀⟩ : ∃ r₀, s.records[n]? = some r₀ :=
          ⟨s.records.get ⟨n, by rw [← hlen]; exact (List.getElem?_eq_some_iff.mp hr).1⟩, by simp⟩
        rcases spoofed_of_refill hr₀ hr hh with hh₀ | hspoof
        · exact absurd ht (s.not_tape_of_pos (by omega) hr₀ hh₀)
        · exact absurd ht (hlast' n h hlt hspoof)
      · exact heq
      · exact absurd ht' (hlast m _ h' hgt (refill_of_spoofed hs') hs'.2)
    subst hm
    have hrc := Option.some.inj (hr.symm.trans (refill_of_spoofed hs'))
    subst hrc
    exact (Option.some.inj (hs'.2.symm.trans hh)).trans hvol
  · intro hall
    obtain ⟨r₀, hr₀⟩ : ∃ r₀, s.records[n]? = some r₀ :=
      ⟨s.records.get ⟨n, by rw [← hlen]; exact (List.getElem?_eq_some_iff.mp hr).1⟩, by simp⟩
    rcases spoofed_of_refill hr₀ hr hh with hh₀ | hspoof
    · rcases Nat.eq_zero_or_pos n with rfl | hn
      · obtain rfl := Option.some.inj (hr₀.symm.trans (rfl : s.records[0]? = some s.volume.encode))
        exact (Option.some.inj (s.volume.parseHeader_encode.symm.trans hh₀)).symm
      · exact absurd ht (s.not_tape_of_pos hn hr₀ hh₀)
    · exact hall n h hspoof ht fun m h' hm hs' ↦ hlast m _ h' hm (refill_of_spoofed hs') hs'.2

theorem parse_eq {rs : List Record} (h : rs ≠ []) :
    ∃ p, parse (tapeOf rs) = some p ∧ p.tapehdr = rs.foldl Walk.lastTape none ∧
      p.inodes = (((rs.map some).zipIdx).foldl Walk.step {}).inodes ∧
      p.order = (((rs.map some).zipIdx).foldl Walk.step {}).order :=
  ⟨_, parse_tapeOf rs h, Walk.fold_tapehdr {} rs 0, rfl, rfl⟩

theorem refill_ne_nil (s : Stream) (contents : ℕ → Record) : s.refill contents ≠ [] := by
  intro h
  have h0 := s.refill_zero contents
  rw [h] at h0
  cases h0

/-- The inodes counted by the records that start one. -/
theorem countP_refillFrom (contents : ℕ → Record) (n : ℕ) (rs : List Record) :
    (refillFrom contents n rs).countP Walk.startsInode = rs.countP Walk.startsInode +
      (rs.zipIdx n).countP fun p ↦ (parseHeader p.1).isNone && Walk.startsInode (contents p.2) := by
  induction rs generalizing n with
  | nil => rfl
  | cons r rs ih =>
    rw [refillFrom_cons, List.countP_cons, List.countP_cons, List.zipIdx_cons, List.countP_cons, ih]
    cases hh : parseHeader r with
    | none =>
      have hr : Walk.startsInode r = false := by rw [Walk.startsInode, hh]
      simp only [if_true, hr, Option.isNone_none, Bool.true_and, Bool.false_eq_true, if_false]
      omega
    | some h =>
      simp only [reduceCtorEq, if_false, Option.isNone_some, Bool.false_and, Bool.false_eq_true]
      omega

/-- Up to the end of the bit maps no record is the header of an inode. -/
theorem not_inode_of_lt {n : ℕ} {r : Record} {h : Header} (hn : n < s.mapsEnd)
    (hr : s.records[n]? = some r) (hh : parseHeader r = some h) : h.type ≠ tsInode := by
  have hlen : (s.volume.encode :: s.bitMaps.flatMap BitMap.records).length = s.mapsEnd := by
    rw [List.length_cons, mapsEnd, Nat.add_comm]
  rw [records_eq, List.getElem?_append_left (by rw [hlen]; exact hn)] at hr
  rcases List.mem_cons.mp (List.mem_of_getElem? hr) with rfl | hm
  · obtain rfl := Option.some.inj (s.volume.parseHeader_encode.symm.trans hh)
    have ht : s.volume.header.type = tsTape := s.volume_type
    rw [ht]
    decide
  · obtain ⟨m, -, hm⟩ := List.mem_flatMap.mp hm
    rcases List.mem_cons.mp hm with rfl | hm
    · obtain rfl := Option.some.inj (m.spcl.parseHeader_encode.symm.trans hh)
      have ht : m.spcl.header.type = m.spcl.type.toInt := rfl
      rcases m.type_eq with h | h <;> rw [ht, h] <;> decide
    · rw [m.map_not_header r hm] at hh
      cases hh

/-- The loop over harmless contents: idle through the bit maps, then in step with the loop
over the stream's own data. -/
theorem run_refill (hharm : s.Harmless contents) :
    Walk.Parallel (((s.records.map some).zipIdx).foldl Walk.step {})
        ((((s.refill contents).map some).zipIdx).foldl Walk.step {}) ∧
      Walk.trace {} (((s.refill contents).map some).zipIdx) =
        Walk.trace {} ((s.records.map some).zipIdx) := by
  have hlen : (s.volume.encode :: s.bitMaps.flatMap BitMap.records).length = s.mapsEnd := by
    rw [List.length_cons, mapsEnd, Nat.add_comm]
  have hget : ∀ n, n < s.mapsEnd →
      (s.volume.encode :: s.bitMaps.flatMap BitMap.records)[n]? = s.records[n]? := fun n hn ↦ by
    rw [records_eq, List.getElem?_append_left (by rw [hlen]; exact hn)]
  have hmaps : ∀ r ∈ s.volume.encode :: s.bitMaps.flatMap BitMap.records, ∀ h,
      parseHeader r = some h → h.type ≠ tsInode := by
    intro r hr h hh
    obtain ⟨n, hn⟩ := List.mem_iff_getElem?.mp hr
    have hlt : n < s.mapsEnd := hlen ▸ (List.getElem?_eq_some_iff.mp hn).1
    exact not_inode_of_lt hlt (hget n hlt ▸ hn) hh
  have hmaps' : ∀ r ∈ refillFrom contents 0 (s.volume.encode :: s.bitMaps.flatMap BitMap.records),
      ∀ h, parseHeader r = some h → h.type ≠ tsInode := by
    intro r hr h hh
    obtain ⟨n, hn⟩ := List.mem_iff_getElem?.mp hr
    have hlt : n < s.mapsEnd := by
      rw [← hlen, ← length_refillFrom contents 0]
      exact (List.getElem?_eq_some_iff.mp hn).1
    obtain ⟨r₀, hr₀⟩ : ∃ r₀, s.records[n]? = some r₀ := by
      rw [getElem?_refillFrom, hget n hlt] at hn
      exact ⟨_, (Option.map_eq_some_iff.mp hn).choose_spec.1⟩
    have hrefill : (s.refill contents)[n]? = some r := by
      rw [getElem?_refillFrom, hget n hlt] at hn
      rwa [refill, getElem?_refillFrom]
    rcases spoofed_of_refill hr₀ hrefill hh with hh₀ | hspoof
    · exact not_inode_of_lt hlt hr₀ hh₀
    · exact hharm.inodes n h hspoof
  obtain ⟨hi, ho, hc, htrace⟩ := Walk.run_idle {} rfl _ hmaps 0
  obtain ⟨hi', ho', hc', htrace'⟩ := Walk.run_idle {} rfl _ hmaps' 0
  have hpar : Walk.Parallel (((s.volume.encode :: s.bitMaps.flatMap BitMap.records).map some).zipIdx
        |>.foldl Walk.step {})
      (((refillFrom contents 0 (s.volume.encode :: s.bitMaps.flatMap BitMap.records)).map some).zipIdx
        |>.foldl Walk.step {}) :=
    ⟨hi'.trans hi.symm, ho'.trans ho.symm, hc'.trans hc.symm, .inl hc⟩
  have hplain : ∀ p ∈ (s.files.flatMap DumpFile.records ++ s.ends.map Spcl.encode).zipIdx
      (0 + (s.volume.encode :: s.bitMaps.flatMap BitMap.records).length),
      parseHeader p.1 = none → parseHeader (contents p.2) = none := by
    intro p hp hnone
    rw [Nat.zero_add] at hp
    obtain ⟨hle, hpr⟩ := List.mem_zipIdx_iff_le_and_getElem?_sub.mp hp
    by_contra hne
    obtain ⟨h, hh⟩ := Option.ne_none_iff_exists'.mp hne
    have hr : s.records[p.2]? = some p.1 := by
      rw [records_eq, List.getElem?_append_right hle]
      exact hpr
    have hlt := hharm.blocks p.2 h ⟨⟨p.1, hr, hnone⟩, hh⟩
    omega
  obtain ⟨hpar', htail⟩ := hpar.run contents _ _ hplain
  rw [refill, records_eq]
  generalize s.files.flatMap DumpFile.records ++ s.ends.map Spcl.encode = tail at hpar' htail ⊢
  generalize s.volume.encode :: s.bitMaps.flatMap BitMap.records = maps at hpar' htail htrace htrace' ⊢
  rw [refillFrom_append, Walk.fold_records_append, Walk.fold_records_append,
    length_refillFrom, List.map_append, List.map_append, List.zipIdx_append, List.zipIdx_append,
    Walk.trace_append, Walk.trace_append, htrace, htrace', length_refillFrom]
  refine ⟨hpar', congrArg _ ?_⟩
  rw [List.length_map, List.length_map, length_refillFrom]
  exact htail

/-- Other contents have the structure that the headers announce exactly when they are harmless. -/
theorem sameStructure_refill_iff :
    SameStructure s.records (s.refill contents) ↔ s.Harmless contents := by
  have hne : s.records ≠ [] := List.cons_ne_nil _ _
  obtain ⟨p, hp, htape, hinodes, horder⟩ := parse_eq hne
  obtain ⟨p', hp', htape', hinodes', horder'⟩ := parse_eq (s.refill_ne_nil contents)
  have hvol : s.records.foldl Walk.lastTape none = some s.volume.header := by
    obtain ⟨order, orphans, hparse, -⟩ := s.parse_records
    rw [← htape, Option.some.inj (hp.symm.trans hparse)]
  constructor
  · rintro ⟨⟨q, q', hq, hq', ht, hi, ho⟩, hplaced⟩
    obtain rfl := Option.some.inj (hp.symm.trans hq)
    obtain rfl := Option.some.inj (hp'.symm.trans hq')
    refine ⟨fun n h hs ↦ ?_, fun n h hs hti ↦ ?_, tape_iff.mp ?_⟩
    · by_contra hn
      obtain ⟨r, hr, hd⟩ := hs.1
      have hsome := s.isSome_placementAt (not_lt.mp hn) hr hd
      have hget : (tapeOf (s.refill contents)).get? n = some (contents n) := by
        rw [get?_tapeOf, refill_of_spoofed hs]
      have hnone : placementAt (s.refill contents) n = none := by
        rw [placementAt, hget, Walk.placement, if_neg (by simp [hs.2])]
      rw [← hplaced, hnone] at hsome
      cases hsome
    · have hcount := congrArg List.length ho
      rw [horder, horder', Walk.length_order_fold, Walk.length_order_fold, refill,
        countP_refillFrom] at hcount
      obtain ⟨r, hr, hd⟩ := hs.1
      have hzero : (s.records.zipIdx 0).countP (fun p ↦
          (parseHeader p.1).isNone && Walk.startsInode (contents p.2)) = 0 := by omega
      have hmem : (r, n) ∈ s.records.zipIdx 0 := by
        rw [List.mem_zipIdx_iff_getElem?]
        exact hr
      have hfalse := List.countP_eq_zero.mp hzero (r, n) hmem
      simp [hd, Walk.startsInode, hs.2, hti] at hfalse
    · rw [← htape', ht, htape, hvol]
  · intro hharm
    have hrun := run_refill hharm
    refine ⟨⟨p, p', hp, hp', ?_, ?_, ?_⟩, fun n ↦ ?_⟩
    · rw [htape', htape, hvol]
      exact tape_iff.mpr hharm.tape
    · rw [hinodes', hinodes, hrun.1.inodes]
    · rw [horder', horder, hrun.1.order]
    · rw [placementAt_eq, placementAt_eq, hrun.2]

end Stream

theorem SameStructure.symm {rs rs' : List Record} (h : SameStructure rs rs') : SameStructure rs' rs := by
  obtain ⟨⟨p, p', hp, hp', ht, hi, ho⟩, hplaced⟩ := h
  exact ⟨⟨p', p, hp', hp, ht.symm, hi.symm, ho.symm⟩, fun n ↦ (hplaced n).symm⟩

theorem SameStructure.trans {rs rs' rs'' : List Record} (h : SameStructure rs rs')
    (h' : SameStructure rs' rs'') : SameStructure rs rs'' := by
  obtain ⟨⟨p, p', hp, hp', ht, hi, ho⟩, hplaced⟩ := h
  obtain ⟨⟨q, q', hq, hq', ht', hi', ho'⟩, hplaced'⟩ := h'
  obtain rfl := Option.some.inj (hp'.symm.trans hq)
  exact ⟨⟨p, q', hp, hq', ht'.trans ht, hi'.trans hi, ho'.trans ho⟩,
    fun n ↦ (hplaced' n).trans (hplaced n)⟩

/-- Two contents of a stream decode alike, each as the headers announce, exactly when neither
has a record that reads as a header where this matters. -/
theorem contents_keep_structure (s : Stream) (contents contents' : ℕ → Record) :
    (SameStructure s.records (s.refill contents) ∧ SameStructure s.records (s.refill contents') ∧
      SameStructure (s.refill contents) (s.refill contents')) ↔
      s.Harmless contents ∧ s.Harmless contents' := by
  constructor
  · rintro ⟨h, h', -⟩
    exact ⟨Stream.sameStructure_refill_iff.mp h, Stream.sameStructure_refill_iff.mp h'⟩
  · rintro ⟨h, h'⟩
    have hs := Stream.sameStructure_refill_iff.mpr h
    have hs' := Stream.sameStructure_refill_iff.mpr h'
    exact ⟨hs, hs', hs.symm.trans hs'⟩

/-- A file that holds a piece of a dump, the header of an inode, against one that holds ones. -/
theorem dumpImage_changes_structure :
    ¬ SameStructure (solidDump.refill fun _ ↦ (volumeHeader 2).encode)
      (solidDump.refill fun _ ↦ filled 1) := by
  intro hsame
  have hplain : solidDump.toStream.Harmless fun _ ↦ filled 1 := by
    have hnone : ∀ n h, ¬ solidDump.toStream.Spoofed (fun _ ↦ filled 1) n h := by
      rintro n h ⟨-, hh⟩
      rw [parseHeader_filled 1 (by decide)] at hh
      cases hh
    exact ⟨fun n h hs ↦ absurd hs (hnone n h), fun n h hs ↦ absurd hs (hnone n h),
      fun n h hs ↦ absurd hs (hnone n h)⟩
  have hspoof : solidDump.toStream.Spoofed (fun _ ↦ (volumeHeader 2).encode) 2
      (volumeHeader 2).header :=
    ⟨⟨filled 1, rfl, parseHeader_filled 1 (by decide)⟩, (volumeHeader 2).parseHeader_encode⟩
  have hharm := Stream.sameStructure_refill_iff.mp
    ((Stream.sameStructure_refill_iff.mpr hplain).trans hsame.symm)
  have htype : (volumeHeader 2).header.type = tsInode := by decide
  exact hharm.inodes 2 _ hspoof htype

end S8000.Dump
