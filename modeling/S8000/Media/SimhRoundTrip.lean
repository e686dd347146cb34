import S8000.Media.Simh

namespace S8000.Media.Simh

open Foundation Foundation.Bytes

section Agreement

/-- The readers of plain tapes agree up to the join of the records of a file. -/
theorem serveTape_readTapLoop (files : List LogicalFile) (records : LogicalFile) (data : List Byte) :
    ServeTape.readTapLoop (files.map List.flatten) records data =
      (ExtractTapeImages.readTapLoop files records data).map (List.map List.flatten) := by
  induction hn : data.length using Nat.strong_induction_on generalizing files records data with
  | _ n ih =>
  subst hn
  cases h : popLe32 data with
  | none =>
    rw [ServeTape.readTapLoop_none h, ExtractTapeImages.readTapLoop_none h]
    split <;> rfl
  | some p =>
    obtain ⟨marker, rest⟩ := p
    have hlen := length_of_popLe32 h
    rw [ServeTape.readTapLoop_some h, ExtractTapeImages.readTapLoop_some h]
    split
    · split <;> rfl
    split
    · have hnext := ih rest.length (by omega) (files ++ [records]) [] rest rfl
      rwa [List.map_append] at hnext
    split
    · rfl
    cases hr : readRecord marker rest with
    | error e => rfl
    | ok q =>
      have hle := length_of_readRecord hr
      exact ih q.2.length (by omega) files (records ++ [q.1]) q.2 rfl

theorem serveSadie_readSadieTapLoop (tracks : Dict ℕ (List LogicalFile)) (files : List LogicalFile)
    (records : LogicalFile) (track : Option ℕ) (data : List Byte) :
    (ServeSadie.readSadieTapLoop tracks files records track data).toOption =
      (ExtractTapeImages.readSadieTapLoop tracks files records track data).toOption := by
  induction hn : data.length using Nat.strong_induction_on generalizing tracks files records track data with
  | _ n ih =>
  subst hn
  cases h : popLe32 data with
  | none => rw [ServeSadie.readSadieTapLoop_none h, ExtractTapeImages.readSadieTapLoop_none h]
  | some p =>
    obtain ⟨marker, rest⟩ := p
    have hlen := length_of_popLe32 h
    rw [ServeSadie.readSadieTapLoop_some h, ExtractTapeImages.readSadieTapLoop_some h]
    split
    · cases track with
      | none => rfl
      | some track =>
        simp only
        split <;> rfl
    split
    · split
      · rfl
      simp only
      split
      · rfl
      · exact ih rest.length (by omega) _ _ _ _ rest rfl
    cases track with
    | none => rfl
    | some track =>
      simp only
      split
      · exact ih rest.length (by omega) _ _ _ _ rest rfl
      split
      · rfl
      cases hr : readRecord marker rest with
      | error e => rfl
      | ok q =>
        have hle := length_of_readRecord hr
        exact ih q.2.length (by omega) _ _ _ _ q.2 rfl

theorem serveSadie_readSadieTap (data : List Byte) :
    (ServeSadie.readSadieTap data).toOption = (ExtractTapeImages.readSadieTap data).toOption := by
  have h := serveSadie_readSadieTapLoop ∅ [] [] none data
  rw [ServeSadie.readSadieTap, ExtractTapeImages.readSadieTap]
  cases hs : ServeSadie.readSadieTapLoop ∅ [] [] none data with
  | error e =>
    cases he : ExtractTapeImages.readSadieTapLoop ∅ [] [] none data with
    | error e' => rfl
    | ok tracks =>
      rw [hs, he] at h
      cases h
  | ok tracks =>
    cases he : ExtractTapeImages.readSadieTapLoop ∅ [] [] none data with
    | error e' =>
      rw [hs, he] at h
      cases h
    | ok tracks' =>
      rw [hs, he] at h
      obtain rfl := Option.some.inj h
      rfl

end Agreement

section Masks

theorem and_high_of_lt {n : ℕ} (h : n < 2 ^ 28) : n &&& 0xf0000000 = 0 := by
  apply Nat.eq_of_testBit_eq
  intro i
  rw [Nat.testBit_and, Nat.zero_testBit]
  by_cases hi : i < 28
  · have hmask : (0xf0000000 : ℕ) = 15 <<< 28 := by decide
    rw [hmask, Nat.testBit_shiftLeft, decide_eq_false (by omega), Bool.false_and, Bool.and_false]
  · rw [Nat.testBit_lt_two_pow (lt_of_lt_of_le h (Nat.pow_le_pow_right (by decide) (by omega))),
      Bool.false_and]

theorem or_private {n : ℕ} (h : n < 2 ^ 28) : privateMarker ||| n = privateMarker + n := by
  have hmask : privateMarker = 7 <<< 28 := by decide
  rw [hmask, Nat.shiftLeft_add_eq_or_of_lt h]

theorem private_and_high {n : ℕ} (h : n < 2 ^ 28) :
    (privateMarker ||| n) &&& 0xf0000000 = privateMarker := by
  rw [Nat.and_or_distrib_right, and_high_of_lt h, Nat.or_zero]
  decide

theorem private_and_low {n : ℕ} (h : n < 2 ^ 28) : (privateMarker ||| n) &&& 0x0fffffff = n := by
  have hlow : (0x0fffffff : ℕ) = 2 ^ 28 - 1 := by decide
  have hmask : privateMarker &&& 0x0fffffff = 0 := by decide
  rw [Nat.and_or_distrib_right, hmask, Nat.zero_or, hlow, Nat.and_two_pow_sub_one_eq_mod,
    Nat.mod_eq_of_lt h]

/-- A marker is its upper four bits and the others. -/
theorem private_or_low {n : ℕ} (hn : n < 4294967296) (h : n &&& 0xf0000000 = privateMarker) :
    privateMarker ||| (n &&& 0x0fffffff) = n := by
  have hall : (0xf0000000 : ℕ) ||| 0x0fffffff = 2 ^ 32 - 1 := by decide
  rw [← h, ← Nat.and_or_distrib_left, hall, Nat.and_two_pow_sub_one_eq_mod, Nat.mod_eq_of_lt hn]

theorem and_low_lt (n : ℕ) : n &&& 0x0fffffff < 2 ^ 28 :=
  Nat.and_lt_two_pow n (by decide)

end Masks

/-- A record that the format can hold. -/
def Storable (payload : List Byte) : Prop := payload ≠ [] ∧ payload.length < 2 ^ 28

theorem writeRecord_append {payload : List Byte} (rest : List Byte) :
    writeRecord payload ++ rest = le32 payload.length ++ (payload ++
      (if payload.length % 2 = 1 then [0] else []) ++ le32 payload.length ++ rest) := by
  simp only [writeRecord, List.append_assoc]

theorem length_padding (n : ℕ) : (if n % 2 = 1 then [(0 : Byte)] else []).length = n % 2 := by
  split <;> simp <;> omega

section RoundTrip

variable {files : List LogicalFile} {records : LogicalFile} {rest : List Byte}

theorem readTapLoop_records (new : LogicalFile) (hnew : ∀ p ∈ new, Storable p) :
    ExtractTapeImages.readTapLoop files records (new.flatMap writeRecord ++ rest) =
      ExtractTapeImages.readTapLoop files (records ++ new) rest := by
  induction new generalizing records with
  | nil => simp
  | cons p new ih =>
    obtain ⟨hne, hlt⟩ := hnew p List.mem_cons_self
    have hpos := List.length_pos_iff.mpr hne
    have hlt' : p.length < 4294967296 := by omega
    rw [List.flatMap_cons, List.append_assoc, writeRecord_append,
      ExtractTapeImages.readTapLoop_some (popLe32_append hlt' _),
      if_neg (by omega), if_neg (by omega), if_neg (by rw [and_high_of_lt hlt]; simp),
      readRecord_append _ _ _ (length_padding _) hlt']
    simp only
    rw [ih fun q hq ↦ hnew q (List.mem_cons_of_mem _ hq), List.append_assoc]
    rfl

theorem readTapLoop_files (new : List LogicalFile) (hnew : ∀ f ∈ new, ∀ p ∈ f, Storable p) :
    ExtractTapeImages.readTapLoop files [] (new.flatMap writeFile ++ rest) =
      ExtractTapeImages.readTapLoop (files ++ new) [] rest := by
  induction new generalizing files with
  | nil => simp
  | cons f new ih =>
    have hzero : popLe32 (le32 0 ++ (new.flatMap writeFile ++ rest)) = some (0, _) :=
      popLe32_append (by decide) _
    rw [List.flatMap_cons, writeFile, List.append_assoc, List.append_assoc,
      readTapLoop_records f (hnew f List.mem_cons_self), List.nil_append,
      ExtractTapeImages.readTapLoop_some hzero, if_neg (by decide), if_pos rfl,
      ih fun g hg ↦ hnew g (List.mem_cons_of_mem _ hg), List.append_assoc]
    rfl

theorem readTap_writeTap (files : List LogicalFile) (h : ∀ f ∈ files, ∀ p ∈ f, Storable p) :
    ExtractTapeImages.readTap (writeTap files) = .ok files := by
  have heom : popLe32 (le32 eom ++ []) = some (eom, []) := popLe32_append (by decide) []
  rw [ExtractTapeImages.readTap, writeTap, readTapLoop_files files h, List.nil_append,
    ← List.append_nil (le32 eom), ExtractTapeImages.readTapLoop_some heom, if_pos (by decide)]
  rfl

end RoundTrip

section SadieRoundTrip

variable {tracks : Dict ℕ (List LogicalFile)} {files : List LogicalFile} {records : LogicalFile}
  {track : ℕ} {rest : List Byte}

theorem readSadieTapLoop_records (new : LogicalFile) (hnew : ∀ p ∈ new, Storable p) :
    ExtractTapeImages.readSadieTapLoop tracks files records (some track)
        (new.flatMap writeRecord ++ rest) =
      ExtractTapeImages.readSadieTapLoop tracks files (records ++ new) (some track) rest := by
  induction new generalizing records with
  | nil => simp
  | cons p new ih =>
    obtain ⟨hne, hlt⟩ := hnew p List.mem_cons_self
    have hpos := List.length_pos_iff.mpr hne
    have hlt' : p.length < 4294967296 := by omega
    have hprivate : ¬ p.length &&& 0xf0000000 = privateMarker := by
      rw [and_high_of_lt hlt]
      decide
    rw [List.flatMap_cons, List.append_assoc, writeRecord_append,
      ExtractTapeImages.readSadieTapLoop_some (popLe32_append hlt' _),
      if_neg (by omega), if_neg hprivate]
    simp only
    rw [if_neg (by omega), if_neg (by rw [and_high_of_lt hlt]; simp),
      readRecord_append _ _ _ (length_padding _) hlt']
    simp only
    rw [ih fun q hq ↦ hnew q (List.mem_cons_of_mem _ hq), List.append_assoc]
    rfl

theorem readSadieTapLoop_files (new : List LogicalFile) (hnew : ∀ f ∈ new, ∀ p ∈ f, Storable p) :
    ExtractTapeImages.readSadieTapLoop tracks files [] (some track) (new.flatMap writeFile ++ rest) =
      ExtractTapeImages.readSadieTapLoop tracks (files ++ new) [] (some track) rest := by
  induction new generalizing files with
  | nil => simp
  | cons f new ih =>
    have hzero : popLe32 (le32 0 ++ (new.flatMap writeFile ++ rest)) = some (0, _) :=
      popLe32_append (by decide) _
    rw [List.flatMap_cons, writeFile, List.append_assoc, List.append_assoc,
      readSadieTapLoop_records f (hnew f List.mem_cons_self), List.nil_append,
      ExtractTapeImages.readSadieTapLoop_some hzero, if_neg (by decide), if_neg (by decide)]
    simp only [if_true]
    rw [ih fun g hg ↦ hnew g (List.mem_cons_of_mem _ hg), List.append_assoc]
    rfl

/-- Tracks with new numbers are read behind those that have been read. -/
theorem readSadieTapLoop_tracks (new : List (ℕ × List LogicalFile)) (tracks : Dict ℕ (List LogicalFile))
    (files : List LogicalFile) (cur : Option ℕ) (rest : List Byte)
    (hlt : ∀ t ∈ new, t.1 < 2 ^ 28) (hfiles : ∀ t ∈ new, ∀ f ∈ t.2, ∀ p ∈ f, Storable p)
    (hnew : ((closeTrack tracks files cur).keys ++ new.map Prod.fst).Nodup) :
    ∃ tracks' files' cur', ExtractTapeImages.readSadieTapLoop tracks files [] cur
        (new.flatMap writeTrack ++ rest) =
          ExtractTapeImages.readSadieTapLoop tracks' files' [] cur' rest ∧
      (closeTrack tracks' files' cur').items = (closeTrack tracks files cur).items ++ new ∧
      (cur ≠ none ∨ new ≠ [] → cur' ≠ none) := by
  induction new generalizing tracks files cur with
  | nil => exact ⟨tracks, files, cur, rfl, (List.append_nil _).symm, fun h ↦ h.resolve_right (by simp)⟩
  | cons t new ih =>
    have ht := hlt t List.mem_cons_self
    have hmarker : privateMarker ||| t.1 < 4294967296 := by
      rw [or_private ht, privateMarker]
      omega
    have hne : ¬ privateMarker ||| t.1 = 0xffffffff := by
      rw [or_private ht, privateMarker]
      omega
    have hfresh : t.1 ∉ closeTrack tracks files cur := by
      intro hmem
      rw [List.map_cons] at hnew
      exact (List.nodup_append.mp hnew).2.2 t.1 (Dict.mem_keys.mpr hmem) t.1 List.mem_cons_self rfl
    have hitems : (closeTrack (closeTrack tracks files cur) t.2 (some t.1)).items =
        (closeTrack tracks files cur).items ++ [t] := Dict.items_set_of_not_mem t.2 hfresh
    have hkeys : ((closeTrack (closeTrack tracks files cur) t.2 (some t.1)).keys ++
        new.map Prod.fst).Nodup := by
      rw [Dict.keys, hitems, List.map_append, List.append_assoc]
      exact hnew
    obtain ⟨tracks', files', cur', hloop, hall, hcur⟩ := ih (closeTrack tracks files cur) t.2 (some t.1)
      (fun u hu ↦ hlt u (List.mem_cons_of_mem _ hu))
      (fun u hu ↦ hfiles u (List.mem_cons_of_mem _ hu)) hkeys
    refine ⟨tracks', files', cur', ?_, by rw [hall, hitems, List.append_assoc]; rfl,
      fun _ ↦ hcur (.inl (by simp))⟩
    have hsplit : (t :: new).flatMap writeTrack ++ rest = le32 (privateMarker ||| t.1) ++
        (t.2.flatMap writeFile ++ (new.flatMap writeTrack ++ rest)) := by
      simp only [List.flatMap_cons, writeTrack, List.append_assoc]
    rw [hsplit, ExtractTapeImages.readSadieTapLoop_some (popLe32_append hmarker _), if_neg hne,
      if_pos (private_and_high ht), if_neg (by simp), private_and_low ht]
    simp only [if_neg hfresh]
    rw [readSadieTapLoop_files t.2 (hfiles t List.mem_cons_self), List.nil_append, hloop]

theorem readSadieTapLoop_eom (tracks : Dict ℕ (List LogicalFile)) (files : List LogicalFile)
    (cur : Option ℕ) (rest : List Byte) :
    ExtractTapeImages.readSadieTapLoop tracks files [] cur (le32 eom ++ rest) =
      if cur = none then .error .noTrackMarkers else .ok (closeTrack tracks files cur) := by
  have heom : popLe32 (le32 eom ++ rest) = some (eom, rest) := popLe32_append (by decide) rest
  rw [ExtractTapeImages.readSadieTapLoop_some heom, if_pos (by decide)]
  cases cur <;> rfl

end SadieRoundTrip

/-- Tracks numbered from zero. -/
def numberTracks (tracks : List (List LogicalFile)) : List (ℕ × List LogicalFile) :=
  tracks.zipIdx.map Prod.swap

theorem map_fst_numberTracks (tracks : List (List LogicalFile)) :
    (numberTracks tracks).map Prod.fst = List.range tracks.length := by
  rw [numberTracks, List.map_map]
  apply List.ext_getElem
  · simp
  · simp

theorem mem_numberTracks {tracks : List (List LogicalFile)} {t : ℕ × List LogicalFile}
    (h : t ∈ numberTracks tracks) : t.1 < tracks.length ∧ t.2 ∈ tracks := by
  obtain ⟨u, hu, rfl⟩ := List.mem_map.mp h
  have hget := List.mem_zipIdx_iff_getElem?.mp hu
  exact ⟨(List.getElem?_eq_some_iff.mp hget).1, List.mem_of_getElem? hget⟩

/-- The loop over numbered tracks, up to what follows them. -/
theorem readSadieTapLoop_numberTracks (tracks : List (List LogicalFile))
    (hlen : tracks.length ≤ 2 ^ 28) (h : ∀ t ∈ tracks, ∀ f ∈ t, ∀ p ∈ f, Storable p)
    (rest : List Byte) :
    ∃ tracks' files' cur', ExtractTapeImages.readSadieTapLoop ∅ [] [] none
        ((numberTracks tracks).flatMap writeTrack ++ rest) =
          ExtractTapeImages.readSadieTapLoop tracks' files' [] cur' rest ∧
      (closeTrack tracks' files' cur').items = numberTracks tracks ∧
      (tracks ≠ [] → cur' ≠ none) := by
  have hnodup : ((closeTrack ∅ [] none).keys ++ (numberTracks tracks).map Prod.fst).Nodup := by
    rw [map_fst_numberTracks]
    exact List.nodup_range
  obtain ⟨tracks', files', cur', hloop, hitems, hcur⟩ := readSadieTapLoop_tracks
    (numberTracks tracks) ∅ [] none rest (fun t ht ↦ lt_of_lt_of_le (mem_numberTracks ht).1 hlen)
    (fun t ht ↦ h t.2 (mem_numberTracks ht).2) hnodup
  exact ⟨tracks', files', cur', hloop, hitems,
    fun hne ↦ hcur (.inr fun hnil ↦ hne (by simpa [numberTracks] using hnil))⟩

theorem readSadieTap_writeSadieTap (tracks : List (List LogicalFile)) (hne : tracks ≠ [])
    (hlen : tracks.length ≤ 2 ^ 28) (h : ∀ t ∈ tracks, ∀ f ∈ t, ∀ p ∈ f, Storable p) :
    ∃ result, ExtractTapeImages.readSadieTap (writeSadieTap (numberTracks tracks)) = .ok result ∧
      result.items = numberTracks tracks := by
  obtain ⟨tracks', files', cur', hloop, hitems, hcur⟩ :=
    readSadieTapLoop_numberTracks tracks hlen h (le32 eom)
  rw [← List.append_nil (le32 eom), readSadieTapLoop_eom, if_neg (hcur hne), List.append_nil] at hloop
  have hkeys : (closeTrack tracks' files' cur').keys = List.range tracks.length := by
    rw [Dict.keys, hitems, map_fst_numberTracks]
  have hsorted : (closeTrack tracks' files' cur').keys.insertionSort (· ≤ ·) =
      List.range (closeTrack tracks' files' cur').keys.length := by
    rw [hkeys, List.length_range]
    exact List.pairwise_le_range.insertionSort_eq
  refine ⟨_, ?_, hitems⟩
  rw [ExtractTapeImages.readSadieTap, writeSadieTap, hloop]
  simp only
  rw [if_neg (not_not.mpr hsorted)]

/-- The codec: what the builder writes is what each reader reads, and on any bytes the readers
of one format agree. -/
theorem simh_round_trip :
    (∀ files : List LogicalFile, (∀ f ∈ files, ∀ p ∈ f, Storable p) →
      ExtractTapeImages.readTap (writeTap files) = .ok files ∧
      ServeTape.readTap (writeTap files) = .ok (files.map List.flatten)) ∧
    (∀ tracks : List (List LogicalFile), tracks ≠ [] → tracks.length ≤ 2 ^ 28 →
      (∀ t ∈ tracks, ∀ f ∈ t, ∀ p ∈ f, Storable p) →
      ∃ result, result.items = numberTracks tracks ∧
        ExtractTapeImages.readSadieTap (writeSadieTap (numberTracks tracks)) = .ok result ∧
        ServeSadie.readSadieTap (writeSadieTap (numberTracks tracks)) = .ok result) ∧
    ∀ data : List Byte,
      (ServeTape.readTap data).toOption =
        (ExtractTapeImages.readTap data).toOption.map (List.map List.flatten) ∧
      (ServeSadie.readSadieTap data).toOption = (ExtractTapeImages.readSadieTap data).toOption := by
  have hserve : ∀ data, ServeTape.readTap data =
      (ExtractTapeImages.readTap data).map (List.map List.flatten) :=
    fun data ↦ serveTape_readTapLoop [] [] data
  refine ⟨fun files h ↦ ?_, fun tracks hne hlen h ↦ ?_, fun data ↦ ⟨?_, serveSadie_readSadieTap data⟩⟩
  · rw [hserve, readTap_writeTap files h]
    exact ⟨rfl, rfl⟩
  · obtain ⟨result, hresult, hitems⟩ := readSadieTap_writeSadieTap tracks hne hlen h
    refine ⟨result, hitems, hresult, ?_⟩
    have hagree := serveSadie_readSadieTap (writeSadieTap (numberTracks tracks))
    rw [hresult] at hagree
    cases hs : ServeSadie.readSadieTap (writeSadieTap (numberTracks tracks)) with
    | error e =>
      rw [hs] at hagree
      cases hagree
    | ok r =>
      rw [hs] at hagree
      exact congrArg _ (Option.some.inj hagree)
  · rw [hserve]
    cases ExtractTapeImages.readTap data <;> rfl


theorem simh_round_trip_small :
    ExtractTapeImages.readTap (writeTap [[[1], [2, 3]], []]) = .ok [[[1], [2, 3]], []] ∧
      ∃ result, result.items = [(0, [[[1]]])] ∧
        ServeSadie.readSadieTap (writeSadieTap [(0, [[[1]]])]) = .ok result := by
  have hone : ∀ t ∈ [[[[1]]]], ∀ f ∈ t, ∀ p ∈ f, Storable p := by
    simp [Storable]
  obtain ⟨result, hitems, -, hserve⟩ := simh_round_trip.2.1 [[[[1]]]] (by simp) (by simp) hone
  exact ⟨(simh_round_trip.1 [[[1], [2, 3]], []] (by simp [Storable])).1, result, hitems, hserve⟩

/-- The marker of track `2 ^ 28` is the one of track 0. -/
theorem readSadieTap_too_many (tracks : List (List LogicalFile)) (last : List LogicalFile)
    (hlen : tracks.length = 2 ^ 28) (h : ∀ t ∈ tracks, ∀ f ∈ t, ∀ p ∈ f, Storable p) :
    ExtractTapeImages.readSadieTap (writeSadieTap (numberTracks (tracks ++ [last]))) =
      .error (.duplicateTrack 0) := by
  have hnumber : numberTracks (tracks ++ [last]) = numberTracks tracks ++ [(2 ^ 28, last)] := by
    rw [numberTracks, numberTracks, List.zipIdx_append, List.map_append, hlen]
    rfl
  have himage : writeSadieTap (numberTracks (tracks ++ [last])) =
      (numberTracks tracks).flatMap writeTrack ++
        (le32 privateMarker ++ (last.flatMap writeFile ++ le32 eom)) := by
    have hmarker : privateMarker ||| 2 ^ 28 = privateMarker := by decide
    simp only [writeSadieTap, hnumber, List.flatMap_append, List.flatMap_cons, List.flatMap_nil,
      writeTrack, hmarker, List.append_assoc, List.append_nil]
  obtain ⟨tracks', files', cur', hloop, hitems, -⟩ :=
    readSadieTapLoop_numberTracks tracks hlen.le h (le32 privateMarker ++ (last.flatMap writeFile ++ le32 eom))
  have hzero : (0 : ℕ) ∈ closeTrack tracks' files' cur' := by
    rw [← Dict.mem_keys, Dict.keys, hitems, map_fst_numberTracks, List.mem_range, hlen]
    decide
  have hlow : privateMarker &&& 0x0fffffff = 0 := by decide
  rw [ExtractTapeImages.readSadieTap, himage, hloop,
    ExtractTapeImages.readSadieTapLoop_some (popLe32_append (by decide) _), if_neg (by decide),
    if_pos (by decide), if_neg (by simp), hlow]
  simp only [if_pos hzero]

/-- A medium without tracks, and one with a track too many for the 28 bits of its marker. -/
theorem trackNumbers_exhausted :
    (¬ ∃ result, result.items = numberTracks [] ∧
      ExtractTapeImages.readSadieTap (writeSadieTap (numberTracks [])) = .ok result) ∧
    ¬ ∃ result, result.items = numberTracks (List.replicate (2 ^ 28) [] ++ [[]]) ∧
      ExtractTapeImages.readSadieTap
        (writeSadieTap (numberTracks (List.replicate (2 ^ 28) [] ++ [[]]))) = .ok result := by
  constructor
  · rintro ⟨result, -, hresult⟩
    have hloop := readSadieTapLoop_eom ∅ [] none []
    have himage : writeSadieTap (numberTracks []) = le32 eom ++ [] := rfl
    rw [ExtractTapeImages.readSadieTap, himage, hloop] at hresult
    cases hresult
  · rintro ⟨result, -, hresult⟩
    rw [readSadieTap_too_many _ [] List.length_replicate fun t ht f hf ↦ by
      rw [List.eq_of_mem_replicate ht] at hf
      cases hf] at hresult
    cases hresult

end S8000.Media.Simh
