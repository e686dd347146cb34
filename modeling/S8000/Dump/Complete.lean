import S8000.Dump.Stream
import S8000.Foundation.Holes

namespace S8000.Dump

open Foundation Foundation.Bytes Foundation.Holes

/-- Stores the entries of consecutive slots from logical block `l` on. -/
def place (blocks : Blocks) (ino : ℕ) : ℕ → List (Option Record) → Blocks
  | _, [] => blocks
  | l, none :: s => place blocks ino (l + 1) s
  | l, some r :: s => place (setBlock blocks ino l r) ino (l + 1) s

/-- The logical block counter behind a segment that it entered at `l` with `k` holes still to
be skipped: holes behind the last record are never counted. -/
def reach (l k : ℕ) : List (Option Record) → ℕ
  | [] => l
  | none :: s => reach l (k + 1) s
  | some _ :: s => reach (l + k + 1) 0 s

/-- The blocks of one inode as the loop stores them. -/
def placeSegments (blocks : Blocks) (ino : ℕ) : ℕ → List (List (Option Record)) → Blocks
  | _, [] => blocks
  | l, s :: segs => placeSegments (place blocks ino l s) ino (reach l 0 s) segs

theorem reach_eq (l k : ℕ) (s : List (Option Record)) :
    reach l k s = if extent s = 0 then l else l + k + extent s := by
  induction s generalizing l k with
  | nil => simp [reach, extent]
  | cons o s ih =>
    cases o with
    | none =>
      by_cases h : extent s = 0
      · have hc : extent (none :: s) = 0 := by rw [extent, if_pos ⟨h, rfl⟩]
        rw [reach, ih, if_pos h, if_pos hc]
      · have hc : extent (none :: s) = extent s + 1 := by rw [extent, if_neg (fun h' ↦ h h'.1)]
        rw [reach, ih, if_neg h, hc, if_neg (Nat.succ_ne_zero _)]
        omega
    | some r =>
      have hc : extent (some r :: s) = extent s + 1 := by
        rw [extent, if_neg (fun h ↦ Option.some_ne_none r h.2)]
      rw [reach, ih, hc, if_neg (Nat.succ_ne_zero _)]
      split <;> omega

theorem reach_zero (l : ℕ) (s : List (Option Record)) : reach l 0 s = l + (strip s).length := by
  rw [reach_eq, length_strip]
  split <;> omega

theorem blockAt_place (blocks : Blocks) (ino l : ℕ) (s : List (Option Record)) (ino' lb : ℕ) :
    blockAt (place blocks ino l s) ino' lb =
      (if ino = ino' ∧ l ≤ lb then entry s (lb - l) else none).or (blockAt blocks ino' lb) := by
  induction s generalizing blocks l with
  | nil => simp [place]
  | cons o s ih =>
    have hnext : (if ino = ino' ∧ l + 1 ≤ lb then entry s (lb - (l + 1)) else none) =
        if ino = ino' ∧ l + 1 ≤ lb then entry (o :: s) (lb - l) else none := by
      split
      · rename_i h
        rw [show lb - l = lb - (l + 1) + 1 by omega, entry_cons_succ]
      · rfl
    by_cases hl : l = lb
    · subst hl
      cases o with
      | none => simp [place, ih]
      | some r =>
        rw [place, ih, blockAt_setBlock]
        by_cases hi : ino = ino' <;> simp [hi]
    · have hcond : (ino = ino' ∧ l + 1 ≤ lb) ↔ (ino = ino' ∧ l ≤ lb) := by
        constructor <;> rintro ⟨h, h'⟩ <;> exact ⟨h, by omega⟩
      cases o with
      | none =>
        rw [place, ih, hnext]
        simp only [hcond]
      | some r =>
        have hb : blockAt (setBlock blocks ino l r) ino' lb = blockAt blocks ino' lb := by
          rw [blockAt_setBlock, if_neg (fun h ↦ hl h.2)]
        rw [place, ih, hnext, hb]
        simp only [hcond]

theorem blockAt_placeSegments (blocks : Blocks) (ino l : ℕ) (segs : List (List (Option Record)))
    (ino' lb : ℕ) :
    blockAt (placeSegments blocks ino l segs) ino' lb =
      (if ino = ino' ∧ l ≤ lb then entry (segs.flatMap strip) (lb - l) else none).or
        (blockAt blocks ino' lb) := by
  induction segs generalizing blocks l with
  | nil => simp [placeSegments]
  | cons s segs ih =>
    rw [placeSegments, ih, blockAt_place, reach_zero, ← Option.or_assoc, List.flatMap_cons]
    congr 1
    by_cases hi : ino = ino'
    · by_cases hl : l ≤ lb
      · simp only [hi, hl, true_and, if_true]
        rw [entry_append]
        by_cases hlt : lb - l < (strip s).length
        · rw [if_pos hlt, if_neg (by omega), Option.none_or, entry_strip]
        · rw [if_neg hlt, if_pos (by omega)]
          have hnone : entry s (lb - l) = none :=
            (extent_le_iff s _).mp le_rfl _ (by rw [← length_strip]; omega)
          rw [hnone, Option.or_none, Nat.sub_sub]
      · simp only [hl, and_false, if_false]
        rw [if_neg (by omega)]
        rfl
    · simp only [hi, false_and, if_false]
      rfl

/-- The map bytes that go with a list of slots. -/
def Marks (m : List Byte) (s : List (Option Record)) : Prop :=
  List.Forall₂ (fun b o ↦ b = 0 ↔ o = none) m s

theorem Segment.marks (s : Segment) : Marks s.spcl.encode.addrMap s.slots := by
  rw [Marks, List.forall₂_iff_get]
  refine ⟨s.length_map, fun i hi hi' ↦ ?_⟩
  have h := s.map_eq_zero_iff i hi'
  rwa [List.getD_eq_getElem _ _ hi] at h

namespace Walk

/-- The data records of a segment fill its slots in order, each behind the holes that were
pending when it arrived. -/
theorem fold_slots (st : Walk) (ino : ℕ) (hc : st.cur = some ino) (s : List (Option Record))
    (m : List Byte) (k : ℕ) (hm : Marks m s)
    (hd : st.amap.drop st.ai = List.replicate k 0 ++ m)
    (hs : ∀ r, some r ∈ s → parseHeader r = none) (n : ℕ) :
    ∃ ai, (((s.filterMap id).map some).zipIdx n).foldl step st =
      { st with
        blocks := place st.blocks ino (st.logical + k) s
        ai := ai
        logical := reach st.logical k s } := by
  induction hm generalizing st k n with
  | nil => exact ⟨st.ai, rfl⟩
  | @cons b o m s hb hm ih =>
    cases o with
    | none =>
      obtain rfl : b = 0 := hb.mpr rfl
      have hd' : st.amap.drop st.ai = List.replicate (k + 1) 0 ++ m := by
        rw [hd, List.replicate_succ', List.append_assoc]
        rfl
      obtain ⟨ai, h⟩ := ih st hc (k + 1) hd' (fun r hr ↦ hs r (List.mem_cons_of_mem _ hr)) n
      exact ⟨ai, h⟩
    | some r =>
      have hb0 : b ≠ 0 := fun h ↦ by simpa using hb.mp h
      have hslot := slot_of_drop hc hb0 hd
      have hstep : st.step (some r, n) =
          { st with
            ai := st.ai + k + 1
            logical := st.logical + k + 1
            blocks := setBlock st.blocks ino (st.logical + k) r } := by
        rw [step_data (hs r List.mem_cons_self), data, hslot]
      let st' : Walk :=
        { st with
          ai := st.ai + k + 1
          logical := st.logical + k + 1
          blocks := setBlock st.blocks ino (st.logical + k) r }
      have hd' : st'.amap.drop st'.ai = List.replicate 0 0 ++ m := by
        have hlen : (List.replicate k (0 : Byte) ++ [b]).length = k + 1 := by simp
        change st.amap.drop (st.ai + k + 1) = m
        rw [Nat.add_assoc, ← List.drop_drop, hd, ← List.singleton_append, ← List.append_assoc,
          ← hlen, List.drop_left]
      obtain ⟨ai, h⟩ := ih st' hc 0 hd' (fun r hr ↦ hs r (List.mem_cons_of_mem _ hr)) (n + 1)
      refine ⟨ai, ?_⟩
      simp only [List.filterMap_cons, id_eq, List.map_cons, List.zipIdx_cons, List.foldl_cons]
      rw [hstep]
      exact h

theorem fold_records_append (a b : List Record) (n : ℕ) (st : Walk) :
    (((a ++ b).map some).zipIdx n).foldl step st =
      ((b.map some).zipIdx (n + a.length)).foldl step (((a.map some).zipIdx n).foldl step st) := by
  rw [List.map_append, List.zipIdx_append, List.foldl_append, List.length_map]

theorem fold_records_cons (r : Record) (b : List Record) (n : ℕ) (st : Walk) :
    (((r :: b).map some).zipIdx n).foldl step st =
      ((b.map some).zipIdx (n + 1)).foldl step (st.step (some r, n)) := by
  rw [List.map_cons, List.zipIdx_cons, List.foldl_cons]

theorem step_addr {st : Walk} {s : Segment} (ht : s.spcl.type.toInt = tsAddr) (n : ℕ) :
    st.step (some s.spcl.encode, n) = { st with amap := s.spcl.encode.addrMap, ai := 0 } := by
  rw [step_header s.spcl.parseHeader_encode, header]
  have ht' : s.spcl.header.type = tsAddr := ht
  rw [ht', if_neg (by decide), if_neg (by decide), if_pos rfl]

theorem step_inode {st : Walk} (f : DumpFile) (n : ℕ) :
    st.step (some f.first.spcl.encode, n) =
      { st with
        inodes := st.inodes.set f.inum f.dinode
        order := st.order ++ [(f.first.spcl.tapea.toNat, f.inum)]
        cur := some f.inum
        amap := f.first.spcl.encode.addrMap
        ai := 0
        logical := 0 } := by
  rw [step_header f.first.spcl.parseHeader_encode, header]
  have ht : f.first.spcl.header.type = tsInode := f.first_type
  rw [ht, if_neg (by decide), if_pos rfl, Spcl.dinode_encode]
  rfl

/-- A `TS_ADDR` segment continues where the counter stands. -/
theorem fold_addr (st : Walk) (ino : ℕ) (hc : st.cur = some ino) (s : Segment)
    (ht : s.spcl.type.toInt = tsAddr) (n : ℕ) :
    ∃ amap ai, ((s.records.map some).zipIdx n).foldl step st =
      { st with
        blocks := place st.blocks ino st.logical s.slots
        amap := amap
        ai := ai
        logical := reach st.logical 0 s.slots } := by
  rw [Segment.records, fold_records_cons, step_addr ht]
  obtain ⟨ai, h⟩ := fold_slots { st with amap := s.spcl.encode.addrMap, ai := 0 } ino hc
    s.slots s.spcl.encode.addrMap 0 s.marks rfl s.data_not_header (n + 1)
  exact ⟨_, ai, h⟩

theorem fold_addrs (st : Walk) (ino : ℕ) (hc : st.cur = some ino) (segs : List Segment)
    (ht : ∀ s ∈ segs, s.spcl.type.toInt = tsAddr) (n : ℕ) :
    ∃ amap ai logical, (((segs.flatMap Segment.records).map some).zipIdx n).foldl step st =
      { st with
        blocks := placeSegments st.blocks ino st.logical (segs.map Segment.slots)
        amap := amap
        ai := ai
        logical := logical } := by
  induction segs generalizing st n with
  | nil => exact ⟨st.amap, st.ai, st.logical, rfl⟩
  | cons s segs ih =>
    obtain ⟨amap, ai, h⟩ := fold_addr st ino hc s (ht s List.mem_cons_self) n
    rw [List.flatMap_cons, fold_records_append, h]
    obtain ⟨amap', ai', logical', h'⟩ := ih
      { st with
        blocks := place st.blocks ino st.logical s.slots
        amap := amap
        ai := ai
        logical := reach st.logical 0 s.slots } hc
      (fun s hs ↦ ht s (List.mem_cons_of_mem _ hs)) (n + s.records.length)
    exact ⟨amap', ai', logical', h'⟩

theorem fold_file (st : Walk) (f : DumpFile) (n : ℕ) :
    ∃ order amap ai logical, ((f.records.map some).zipIdx n).foldl step st =
      { st with
        inodes := st.inodes.set f.inum f.dinode
        blocks := placeSegments st.blocks f.inum 0 (f.segments.map Segment.slots)
        order := order
        cur := some f.inum
        amap := amap
        ai := ai
        logical := logical } := by
  rw [DumpFile.records, DumpFile.segments, List.flatMap_cons, fold_records_append,
    Segment.records, fold_records_cons, step_inode]
  obtain ⟨ai, h⟩ := fold_slots
    { st with
      inodes := st.inodes.set f.inum f.dinode
      order := st.order ++ [(f.first.spcl.tapea.toNat, f.inum)]
      cur := some f.inum
      amap := f.first.spcl.encode.addrMap
      ai := 0
      logical := 0 } f.inum rfl f.first.slots _ 0 f.first.marks rfl f.first.data_not_header (n + 1)
  rw [h]
  obtain ⟨amap', ai', logical', h'⟩ := fold_addrs
    { st with
      inodes := st.inodes.set f.inum f.dinode
      order := st.order ++ [(f.first.spcl.tapea.toNat, f.inum)]
      cur := some f.inum
      amap := f.first.spcl.encode.addrMap
      blocks := place st.blocks f.inum 0 f.first.slots
      ai := ai
      logical := reach 0 0 f.first.slots } f.inum rfl f.rest f.rest_type
    (n + (f.first.spcl.encode :: f.first.slots.filterMap id).length)
  exact ⟨_, amap', ai', logical', h'⟩

/-- A header that belongs to no inode. -/
theorem step_other {st : Walk} {s : Spcl} (n : ℕ)
    (ht : s.type.toInt = tsClri ∨ s.type.toInt = tsBits ∨ s.type.toInt = tsEnd) :
    st.step (some s.encode, n) = { st with cur := none, amap := [] } := by
  rw [step_header s.parseHeader_encode, header]
  have hh : s.header.type = s.type.toInt := rfl
  rcases ht with ht | ht | ht <;>
    rw [hh, ht, if_neg (by decide), if_neg (by decide), if_neg (by decide)]

theorem fold_orphans {st : Walk} (hc : st.cur = none) (rs : List Record)
    (hr : ∀ r ∈ rs, parseHeader r = none) (n : ℕ) :
    ((rs.map some).zipIdx n).foldl step st =
      { st with orphans := st.orphans ++ rs.zipIdx.map fun p ↦ (n + p.2, p.1) } := by
  induction rs generalizing st n with
  | nil => simp
  | cons r rs ih =>
    have hstep : st.step (some r, n) = { st with orphans := st.orphans ++ [(n, r)] } := by
      rw [step_data (hr r List.mem_cons_self), data_of_slot_none (slot_of_cur_none hc)]
    have hc' : { st with orphans := st.orphans ++ [(n, r)] }.cur = none := hc
    rw [fold_records_cons, hstep, ih hc' (fun r h ↦ hr r (List.mem_cons_of_mem _ h))]
    simp only [List.zipIdx_cons, List.map_cons, Nat.add_zero, List.append_assoc,
      List.singleton_append, Nat.zero_add]
    congr 3
    rw [List.zipIdx_succ, List.map_map]
    apply List.map_congr_left
    intro p _
    simp only [Function.comp_apply, Prod.mk.injEq, and_true]
    omega

theorem fold_bitMaps (st : Walk) (hc : st.cur = none) (ms : List BitMap) (n : ℕ) :
    ∃ orphans amap, (((ms.flatMap BitMap.records).map some).zipIdx n).foldl step st =
      { st with orphans := st.orphans ++ orphans, amap := amap } ∧
      orphans.map Prod.snd = ms.flatMap BitMap.maps := by
  induction ms generalizing st n with
  | nil => exact ⟨[], st.amap, by simp, rfl⟩
  | cons m ms ih =>
    have hstep : st.step (some m.spcl.encode, n) = { st with cur := none, amap := [] } :=
      step_other n (m.type_eq.imp_right Or.inl)
    rw [List.flatMap_cons, fold_records_append, BitMap.records, fold_records_cons, hstep,
      fold_orphans rfl m.maps m.map_not_header]
    obtain ⟨orphans, amap, h, ho⟩ := ih
      { st with
        cur := none
        amap := []
        orphans := st.orphans ++ m.maps.zipIdx.map fun p ↦ (n + 1 + p.2, p.1) } rfl
      (n + (m.spcl.encode :: m.maps).length)
    rw [h]
    refine ⟨m.maps.zipIdx.map (fun p ↦ (n + 1 + p.2, p.1)) ++ orphans, amap, ?_, ?_⟩
    · simp only [List.append_assoc, hc]
    · rw [List.map_append, ho, List.flatMap_cons, List.map_map]
      congr 1
      exact List.zipIdx_map_fst 0 m.maps

theorem fold_files (st : Walk) (fs : List DumpFile) (n : ℕ) :
    ∃ order cur amap ai logical, (((fs.flatMap DumpFile.records).map some).zipIdx n).foldl step st =
      { st with
        inodes := fs.foldl (fun d f ↦ d.set f.inum f.dinode) st.inodes
        blocks := fs.foldl
          (fun b f ↦ placeSegments b f.inum 0 (f.segments.map Segment.slots)) st.blocks
        order := order
        cur := cur
        amap := amap
        ai := ai
        logical := logical } := by
  induction fs generalizing st n with
  | nil => exact ⟨st.order, st.cur, st.amap, st.ai, st.logical, rfl⟩
  | cons f fs ih =>
    obtain ⟨order, amap, ai, logical, h⟩ := fold_file st f n
    rw [List.flatMap_cons, fold_records_append, h]
    obtain ⟨order', cur', amap', ai', logical', h'⟩ := ih _ (n + f.records.length)
    exact ⟨order', cur', amap', ai', logical', h'⟩

theorem fold_ends (st : Walk) (es : List Spcl) (he : ∀ s ∈ es, s.type.toInt = tsEnd) (n : ℕ) :
    ∃ cur amap, (((es.map Spcl.encode).map some).zipIdx n).foldl step st =
      { st with cur := cur, amap := amap } := by
  induction es generalizing st n with
  | nil => exact ⟨st.cur, st.amap, rfl⟩
  | cons e es ih =>
    have hstep : st.step (some e.encode, n) = { st with cur := none, amap := [] } :=
      step_other n (.inr (.inr (he e List.mem_cons_self)))
    rw [List.map_cons, fold_records_cons, hstep]
    obtain ⟨cur, amap, h⟩ := ih _ (fun s hs ↦ he s (List.mem_cons_of_mem _ hs)) (n + 1)
    exact ⟨cur, amap, h⟩

end Walk

namespace Stream

/-- The inodes with a `TS_INODE` header. -/
def inodes (s : Stream) : Inodes := s.files.foldl (fun d f ↦ d.set f.inum f.dinode) ∅

/-- The blocks as the loop stores them. -/
def stored (s : Stream) : Blocks :=
  s.files.foldl (fun b f ↦ placeSegments b f.inum 0 (f.segments.map Segment.slots)) ∅

/-- What the decoder makes of a complete stream. -/
theorem parse_records (s : Stream) :
    ∃ order orphans, parse (tapeOf s.records) = some
      { tapehdr := some s.volume.header
        inodes := s.inodes
        blocks := s.stored
        order := order
        missing := []
        orphans := orphans } ∧ orphans.map Prod.snd = s.bitMaps.flatMap BitMap.maps := by
  have hvol : (Walk.step {} (some s.volume.encode, 0)) =
      { tapehdr := some s.volume.header } := by
    rw [Walk.step_header s.volume.parseHeader_encode, Walk.header]
    have ht : s.volume.header.type = tsTape := s.volume_type
    rw [ht, if_pos rfl]
  obtain ⟨orphans, amap, hm, ho⟩ :=
    Walk.fold_bitMaps { tapehdr := some s.volume.header } rfl s.bitMaps (0 + 1)
  obtain ⟨order, cur, amap', ai, logical, hf⟩ := Walk.fold_files
    { tapehdr := some s.volume.header, orphans := [] ++ orphans, amap := amap } s.files
    (0 + 1 + (s.bitMaps.flatMap BitMap.records).length)
  change _ = Walk.mk _ s.inodes s.stored _ _ _ _ _ _ at hf
  obtain ⟨cur', amap'', he⟩ := Walk.fold_ends
    { tapehdr := some s.volume.header
      inodes := s.inodes
      blocks := s.stored
      order := order
      orphans := [] ++ orphans
      cur := cur
      amap := amap'
      ai := ai
      logical := logical } s.ends s.ends_type
    (0 + 1 + (s.bitMaps.flatMap BitMap.records).length + (s.files.flatMap DumpFile.records).length)
  refine ⟨order, orphans, ?_, ho⟩
  rw [parse_tapeOf _ (by simp [records]), records, Walk.fold_records_cons, hvol,
    Walk.fold_records_append, hm, Walk.fold_records_append, hf, he]
  rfl

end Stream

end S8000.Dump
