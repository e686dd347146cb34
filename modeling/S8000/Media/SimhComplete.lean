import S8000.Media.SimhRoundTrip

namespace S8000.Media.Simh

open Foundation Foundation.Bytes

/-- The words of an image, walked record by record, lead to the end-of-medium marker, and the
byte that pads a record of odd length is zero. -/
inductive Terminated : List Byte → Prop
  | last (rest : List Byte) : Terminated (le32 eom ++ rest)
  | mark {marker : ℕ} {rest : List Byte} : marker < 2 ^ 32 →
    marker = 0 ∨ marker &&& 0xf0000000 = privateMarker → Terminated rest →
    Terminated (le32 marker ++ rest)
  | record {payload rest : List Byte} : Storable payload → Terminated rest →
    Terminated (writeRecord payload ++ rest)

/-- The bytes that a state of the loop stands for. -/
def written (tracks : Dict ℕ (List LogicalFile)) (files : List LogicalFile) (records : LogicalFile)
    (cur : Option ℕ) : List Byte :=
  tracks.items.flatMap writeTrack ++
    (match cur with
      | none => []
      | some track => le32 (privateMarker ||| track) ++ files.flatMap writeFile) ++
    records.flatMap writeRecord

/-- What holds of the state of the loop: the current track is a new one with a number of 28
bits, nothing has been read before the first, and records are storable. -/
structure Sound (tracks : Dict ℕ (List LogicalFile)) (files : List LogicalFile)
    (records : LogicalFile) (cur : Option ℕ) : Prop where
  fresh : ∀ t, cur = some t → t ∉ tracks ∧ t < 2 ^ 28
  first : cur = none → records = []
  records : ∀ p ∈ records, Storable p
  files : ∀ f ∈ files, ∀ p ∈ f, Storable p
  tracks : ∀ t ∈ tracks.items, t.1 < 2 ^ 28 ∧ ∀ f ∈ t.2, ∀ p ∈ f, Storable p

variable {tracks result : Dict ℕ (List LogicalFile)} {files : List LogicalFile}
  {records : LogicalFile} {cur : Option ℕ} {data rest : List Byte} {marker : ℕ}

theorem Sound.items_closeTrack (h : Sound tracks files records cur) :
    (closeTrack tracks files cur).items = tracks.items ++
      (match cur with
        | none => []
        | some track => [(track, files)]) := by
  cases cur with
  | none => exact (List.append_nil _).symm
  | some t => exact Dict.items_set_of_not_mem files (h.fresh t rfl).1

theorem Sound.storable_closeTrack (h : Sound tracks files records cur) :
    ∀ t ∈ (closeTrack tracks files cur).items, t.1 < 2 ^ 28 ∧ ∀ f ∈ t.2, ∀ p ∈ f, Storable p := by
  intro t ht
  rw [h.items_closeTrack] at ht
  rcases List.mem_append.mp ht with ht | ht
  · exact h.tracks t ht
  · cases cur with
    | none => cases ht
    | some c =>
      obtain rfl := List.mem_singleton.mp ht
      exact ⟨(h.fresh c rfl).2, h.files⟩

theorem Sound.written_nil (h : Sound tracks files [] cur) :
    written tracks files [] cur = (closeTrack tracks files cur).items.flatMap writeTrack := by
  rw [h.items_closeTrack, written.eq_def, List.flatMap_append]
  cases cur with
  | none => simp
  | some t => simp [writeTrack]

theorem lt_of_and_high {n : ℕ} (hn : n < 4294967296) (h : n &&& 0xf0000000 = 0) : n < 2 ^ 28 := by
  have hall : (0xf0000000 : ℕ) ||| 0x0fffffff = 2 ^ 32 - 1 := by decide
  have hsplit : (n &&& 0xf0000000) ||| (n &&& 0x0fffffff) = n := by
    rw [← Nat.and_or_distrib_left, hall, Nat.and_two_pow_sub_one_eq_mod, Nat.mod_eq_of_lt hn]
  rw [h, Nat.zero_or] at hsplit
  rw [← hsplit]
  exact and_low_lt n

/-- One round of the loop that goes on. -/
inductive Round (tracks : Dict ℕ (List LogicalFile)) (files : List LogicalFile)
    (records : LogicalFile) (cur : Option ℕ) (data : List Byte) :
    Dict ℕ (List LogicalFile) → List LogicalFile → LogicalFile → Option ℕ → List Byte → Prop
  | track {marker : ℕ} {rest : List Byte} : data = le32 marker ++ rest → marker < 2 ^ 32 →
    marker &&& 0xf0000000 = privateMarker → records = [] →
    marker &&& 0x0fffffff ∉ closeTrack tracks files cur →
    Round tracks files records cur data (closeTrack tracks files cur) [] []
      (some (marker &&& 0x0fffffff)) rest
  | mark {rest : List Byte} : data = le32 0 ++ rest → cur ≠ none →
    Round tracks files records cur data tracks (files ++ [records]) [] cur rest
  | record {payload padding rest : List Byte} : Storable payload →
    padding.length = payload.length % 2 →
    data = le32 payload.length ++ (payload ++ padding ++ le32 payload.length ++ rest) → cur ≠ none →
    Round tracks files records cur data tracks files (records ++ [payload]) cur rest

/-- A loop that returns has come to the end of the bytes or to the end-of-medium marker, or it
has gone on. -/
theorem readSadieTapLoop_cases
    (h : ExtractTapeImages.readSadieTapLoop tracks files records cur data = .ok result) :
    (popLe32 data = none ∧ result = tracks) ∨
      (∃ rest, data = le32 eom ++ rest ∧ cur ≠ none ∧ records = [] ∧
        result = closeTrack tracks files cur) ∨
      ∃ tracks' files' records' cur' rest,
        Round tracks files records cur data tracks' files' records' cur' rest ∧
        ExtractTapeImages.readSadieTapLoop tracks' files' records' cur' rest = .ok result := by
  cases hpop : popLe32 data with
  | none =>
    rw [ExtractTapeImages.readSadieTapLoop_none hpop] at h
    exact .inl ⟨rfl, (Except.ok.inj h).symm⟩
  | some q =>
    obtain ⟨marker, rest⟩ := q
    have hdata := eq_append_of_popLe32 hpop
    have hlt := popLe32_lt hpop
    rw [ExtractTapeImages.readSadieTapLoop_some hpop] at h
    refine .inr ?_
    by_cases heom : marker = 0xffffffff
    · rw [if_pos heom] at h
      cases cur with
      | none => cases h
      | some t =>
        simp only at h
        split at h
        · cases h
        rename_i hrec
        exact .inl ⟨rest, by rw [hdata, heom]; rfl, by simp, not_not.mp hrec, (Except.ok.inj h).symm⟩
    rw [if_neg heom] at h
    refine .inr ?_
    by_cases hprivate : marker &&& 0xf0000000 = privateMarker
    · rw [if_pos hprivate] at h
      split at h
      · cases h
      rename_i hrec
      simp only at h
      split at h
      · cases h
      rename_i hnew
      exact ⟨_, _, _, _, _, .track hdata hlt hprivate (not_not.mp hrec) hnew, h⟩
    rw [if_neg hprivate] at h
    cases cur with
    | none => cases h
    | some t =>
      simp only at h
      by_cases hzero : marker = 0
      · rw [if_pos hzero] at h
        exact ⟨_, _, _, _, _, .mark (by rw [hdata, hzero]) (by simp), h⟩
      rw [if_neg hzero] at h
      split at h
      · cases h
      rename_i hhigh
      cases hr : readRecord marker rest with
      | error e =>
        rw [hr] at h
        cases h
      | ok q =>
        obtain ⟨payload, rest'⟩ := q
        rw [hr] at h
        obtain ⟨rfl, padding, hpad, rfl⟩ := readRecord_cases hr
        have hsmall : payload.length < 2 ^ 28 := lt_of_and_high hlt (not_not.mp hhigh)
        have hne : payload ≠ [] := fun hnil ↦ hzero (by rw [hnil]; rfl)
        exact ⟨_, _, _, _, _, .record ⟨hne, hsmall⟩ hpad hdata (by simp), h⟩

section Terminated

/-- The front of a terminated image, read as the loop reads it. -/
theorem Terminated.cases_word (h : Terminated data) :
    (∃ rest, popLe32 data = some (eom, rest)) ∨
      (∃ marker rest, popLe32 data = some (marker, rest) ∧
        (marker = 0 ∨ marker &&& 0xf0000000 = privateMarker) ∧ Terminated rest) ∨
      ∃ payload rest, Storable payload ∧ data = writeRecord payload ++ rest ∧ Terminated rest := by
  cases h with
  | last rest => exact .inl ⟨rest, popLe32_append (by decide) rest⟩
  | mark hlt hm h => exact .inr (.inl ⟨_, _, popLe32_append hlt _, hm, h⟩)
  | record hp h => exact .inr (.inr ⟨_, _, hp, rfl, h⟩)

theorem popLe32_writeRecord {payload : List Byte} (hp : Storable payload) (rest : List Byte) :
    popLe32 (writeRecord payload ++ rest) = some (payload.length, payload ++
      (if payload.length % 2 = 1 then [0] else []) ++ le32 payload.length ++ rest) := by
  rw [writeRecord_append, popLe32_append (lt_trans hp.2 (by decide))]

theorem Storable.not_mark {payload : List Byte} (hp : Storable payload) :
    ¬ (payload.length = 0 ∨ payload.length &&& 0xf0000000 = privateMarker) := by
  rintro (h | h)
  · exact hp.1 (List.eq_nil_of_length_eq_zero h)
  · rw [and_high_of_lt hp.2] at h
    cases h

theorem Storable.ne_eom {payload : List Byte} (hp : Storable payload) : payload.length ≠ eom :=
  (lt_trans hp.2 (by decide)).ne

theorem Terminated.popLe32_ne_none (h : Terminated data) : popLe32 data ≠ none := by
  rcases h.cases_word with ⟨rest, hpop⟩ | ⟨marker, rest, hpop, -⟩ | ⟨payload, rest, hp, rfl, -⟩
  · simp [hpop]
  · simp [hpop]
  · simp [popLe32_writeRecord hp]

theorem Terminated.of_mark (h : Terminated (le32 marker ++ rest)) (hlt : marker < 2 ^ 32)
    (hm : marker = 0 ∨ marker &&& 0xf0000000 = privateMarker) : Terminated rest := by
  have hpop := popLe32_append hlt rest
  rcases h.cases_word with ⟨rest', h'⟩ | ⟨marker', rest', h', -, ht⟩ | ⟨payload, rest', hp, h', -⟩
  · rw [hpop] at h'
    obtain ⟨rfl, -⟩ := Prod.mk.inj (Option.some.inj h')
    rcases hm with hm | hm
    · cases hm
    · exact absurd hm (by decide)
  · rw [hpop] at h'
    obtain ⟨rfl, rfl⟩ := Prod.mk.inj (Option.some.inj h')
    exact ht
  · rw [h', popLe32_writeRecord hp] at hpop
    obtain ⟨rfl, -⟩ := Prod.mk.inj (Option.some.inj hpop)
    exact absurd hm hp.not_mark

theorem Terminated.of_record {payload padding : List Byte}
    (h : Terminated (le32 payload.length ++ (payload ++ padding ++ le32 payload.length ++ rest)))
    (hp : Storable payload) (hpad : padding.length = payload.length % 2) :
    padding = (if payload.length % 2 = 1 then [0] else []) ∧ Terminated rest := by
  have hpop := popLe32_append (lt_trans hp.2 (by decide))
    (payload ++ padding ++ le32 payload.length ++ rest)
  rcases h.cases_word with ⟨rest', h'⟩ | ⟨marker', rest', h', hm, -⟩ | ⟨payload', rest', hp', h', ht⟩
  · rw [hpop] at h'
    exact absurd (Prod.mk.inj (Option.some.inj h')).1 hp.ne_eom
  · rw [hpop] at h'
    obtain ⟨rfl, -⟩ := Prod.mk.inj (Option.some.inj h')
    exact absurd hm hp.not_mark
  · rw [h', popLe32_writeRecord hp'] at hpop
    obtain ⟨hlen, hbytes⟩ := Prod.mk.inj (Option.some.inj hpop)
    simp only [List.append_assoc] at hbytes
    obtain ⟨rfl, htail⟩ := List.append_inj hbytes hlen
    obtain ⟨hzero, hrest⟩ := List.append_inj htail ((length_padding _).trans hpad.symm)
    rw [← List.append_cancel_left hrest]
    exact ⟨hzero.symm, ht⟩

theorem Terminated.append {image : List Byte} (h : Terminated image) (rest : List Byte) :
    Terminated (image ++ rest) := by
  induction h with
  | last rest' =>
    rw [List.append_assoc]
    exact .last _
  | mark hlt hm _ ih =>
    rw [List.append_assoc]
    exact .mark hlt hm ih
  | record hp _ ih =>
    rw [List.append_assoc]
    exact .record hp ih

theorem Terminated.writeFiles (h : Terminated rest) {files : List LogicalFile}
    (hf : ∀ f ∈ files, ∀ p ∈ f, Storable p) : Terminated (files.flatMap writeFile ++ rest) := by
  induction files with
  | nil => exact h
  | cons f files ih =>
    rw [List.flatMap_cons, writeFile, List.append_assoc, List.append_assoc]
    have hrest := Terminated.mark (by decide) (.inl rfl) (ih fun g hg ↦ hf g (List.mem_cons_of_mem _ hg))
    have hrecords := hf f List.mem_cons_self
    clear hf ih
    induction f with
    | nil => exact hrest
    | cons p f ih =>
      rw [List.flatMap_cons, List.append_assoc]
      exact .record (hrecords p List.mem_cons_self) (ih fun q hq ↦ hrecords q (List.mem_cons_of_mem _ hq))

theorem terminated_writeSadieTap {tracks : List (ℕ × List LogicalFile)}
    (h : ∀ t ∈ tracks, t.1 < 2 ^ 28 ∧ ∀ f ∈ t.2, ∀ p ∈ f, Storable p) :
    Terminated (writeSadieTap tracks) := by
  induction tracks with
  | nil => exact .last []
  | cons t tracks ih =>
    obtain ⟨hlt, hfiles⟩ := h t List.mem_cons_self
    have hrest := (ih fun u hu ↦ h u (List.mem_cons_of_mem _ hu)).writeFiles hfiles
    have hmarker : privateMarker ||| t.1 < 2 ^ 32 := by
      rw [or_private hlt, privateMarker]
      omega
    rw [writeSadieTap, List.flatMap_cons, writeTrack, List.append_assoc, List.append_assoc]
    exact .mark hmarker (.inr (private_and_high hlt)) hrest

end Terminated

section Run

variable {tracks' : Dict ℕ (List LogicalFile)} {files' : List LogicalFile} {records' : LogicalFile}
  {cur' : Option ℕ}

theorem Round.length_lt (h : Round tracks files records cur data tracks' files' records' cur' rest) :
    rest.length < data.length := by
  cases h with
  | track hdata _ _ _ _ => rw [hdata, List.length_append, length_le32]; omega
  | mark hdata _ => rw [hdata, List.length_append, length_le32]; omega
  | record _ _ hdata _ =>
    rw [hdata, List.length_append, length_le32, List.length_append]
    omega

theorem Sound.round (h : Sound tracks files records cur)
    (hr : Round tracks files records cur data tracks' files' records' cur' rest) :
    Sound tracks' files' records' cur' := by
  cases hr with
  | track _ _ _ _ hnew =>
    refine ⟨?_, by simp, by simp, by simp, h.storable_closeTrack⟩
    rintro t ⟨⟩
    exact ⟨hnew, and_low_lt _⟩
  | mark _ hcur =>
    refine ⟨h.fresh, fun hnone ↦ absurd hnone hcur, by simp, ?_, h.tracks⟩
    intro f hf
    rcases List.mem_append.mp hf with hf | hf
    · exact h.files f hf
    · rw [List.mem_singleton.mp hf]
      exact h.records
  | record hp _ _ hcur =>
    refine ⟨h.fresh, fun hnone ↦ absurd hnone hcur, ?_, h.files, h.tracks⟩
    intro p hmem
    rcases List.mem_append.mp hmem with hmem | hmem
    · exact h.records p hmem
    · rw [List.mem_singleton.mp hmem]
      exact hp

/-- A round over terminated bytes moves what it reads into what has been read. -/
theorem Sound.written_round (h : Sound tracks files records cur) (ht : Terminated data)
    (hr : Round tracks files records cur data tracks' files' records' cur' rest) :
    Terminated rest ∧
      written tracks files records cur ++ data = written tracks' files' records' cur' ++ rest := by
  cases hr with
  | track hdata hlt hprivate hrec hnew =>
    subst hdata hrec
    refine ⟨ht.of_mark hlt (.inr hprivate), ?_⟩
    rw [h.written_nil, written.eq_def]
    simp only [private_or_low hlt hprivate, List.flatMap_nil, List.append_nil, List.append_assoc]
  | mark hdata hcur =>
    subst hdata
    refine ⟨ht.of_mark (by decide) (.inl rfl), ?_⟩
    obtain ⟨t, rfl⟩ := Option.ne_none_iff_exists'.mp hcur
    simp only [written, writeFile, List.flatMap_append, List.flatMap_cons, List.flatMap_nil,
      List.append_nil, List.append_assoc]
  | record hp hpad hdata hcur =>
    subst hdata
    obtain ⟨rfl, hrest⟩ := ht.of_record hp hpad
    refine ⟨hrest, ?_⟩
    obtain ⟨t, rfl⟩ := Option.ne_none_iff_exists'.mp hcur
    simp only [written, writeRecord, List.flatMap_append, List.flatMap_cons, List.flatMap_nil,
      List.append_nil, List.append_assoc]

theorem Sound.storable_result (h : Sound tracks files records cur)
    (hloop : ExtractTapeImages.readSadieTapLoop tracks files records cur data = .ok result) :
    ∀ t ∈ result.items, t.1 < 2 ^ 28 ∧ ∀ f ∈ t.2, ∀ p ∈ f, Storable p := by
  induction hn : data.length using Nat.strong_induction_on
    generalizing tracks files records cur data with
  | _ n ih =>
  subst hn
  rcases readSadieTapLoop_cases hloop with ⟨-, rfl⟩ | ⟨rest, -, -, -, rfl⟩ |
    ⟨tracks', files', records', cur', rest, hr, hnext⟩
  · exact h.tracks
  · exact h.storable_closeTrack
  · exact ih rest.length hr.length_lt (h.round hr) hnext rfl

/-- Over terminated bytes the loop returns all that it has read. -/
theorem Sound.written_result (h : Sound tracks files records cur) (ht : Terminated data)
    (hloop : ExtractTapeImages.readSadieTapLoop tracks files records cur data = .ok result) :
    ∃ rest, written tracks files records cur ++ data = writeSadieTap result.items ++ rest := by
  induction hn : data.length using Nat.strong_induction_on
    generalizing tracks files records cur data with
  | _ n ih =>
  subst hn
  rcases readSadieTapLoop_cases hloop with ⟨hnone, -⟩ | ⟨rest, rfl, -, rfl, rfl⟩ |
    ⟨tracks', files', records', cur', rest, hr, hnext⟩
  · exact absurd hnone ht.popLe32_ne_none
  · refine ⟨rest, ?_⟩
    rw [h.written_nil, writeSadieTap, List.append_assoc]
  · obtain ⟨hrest, hwritten⟩ := h.written_round ht hr
    rw [hwritten]
    exact ih rest.length hr.length_lt (h.round hr) hrest hnext rfl

end Run

theorem sound_empty : Sound ∅ [] [] none :=
  ⟨by simp, by simp, by simp, by simp, by rintro t ⟨⟩⟩

theorem readSadieTapLoop_of_readSadieTap (h : ExtractTapeImages.readSadieTap data = .ok result) :
    ExtractTapeImages.readSadieTapLoop ∅ [] [] none data = .ok result := by
  rw [ExtractTapeImages.readSadieTap] at h
  split at h
  · cases h
  · rename_i tracks hloop
    split at h
    · cases h
    · rw [hloop, Except.ok.inj h]

theorem encoding_iff_terminated (h : ExtractTapeImages.readSadieTap data = .ok result) :
    (∃ rest, data = writeSadieTap result.items ++ rest) ↔ Terminated data := by
  have hloop := readSadieTapLoop_of_readSadieTap h
  constructor
  · rintro ⟨rest, rfl⟩
    exact (terminated_writeSadieTap (sound_empty.storable_result hloop)).append rest
  · intro ht
    exact sound_empty.written_result ht hloop

/-- Each reader of a medium returns all that its image says exactly when the image has its
end-of-medium marker and zeros for padding. -/
theorem readSadieTap_complete_iff (data : List Byte) (tracks : Dict ℕ (List LogicalFile)) :
    (ExtractTapeImages.readSadieTap data = .ok tracks →
      ((∃ rest, data = writeSadieTap tracks.items ++ rest) ↔ Terminated data)) ∧
    (ServeSadie.readSadieTap data = .ok tracks →
      ((∃ rest, data = writeSadieTap tracks.items ++ rest) ↔ Terminated data)) := by
  refine ⟨encoding_iff_terminated, fun h ↦ encoding_iff_terminated ?_⟩
  have hagree := serveSadie_readSadieTap data
  rw [h] at hagree
  cases he : ExtractTapeImages.readSadieTap data with
  | error e =>
    rw [he] at hagree
    cases hagree
  | ok tracks' =>
    rw [he] at hagree
    exact congrArg _ (Option.some.inj hagree).symm

theorem readSadieTap_complete_small :
    (∃ result, ExtractTapeImages.readSadieTap (writeSadieTap [(0, [[[1]]])]) = .ok result ∧
      ∃ rest, writeSadieTap [(0, [[[1]]])] = writeSadieTap result.items ++ rest) ∧
    ∃ result, ServeSadie.readSadieTap (writeSadieTap [(0, [[[1]]])]) = .ok result ∧
      ∃ rest, writeSadieTap [(0, [[[1]]])] = writeSadieTap result.items ++ rest := by
  have hone : ∀ t ∈ [[[[1]]]], ∀ f ∈ t, ∀ p ∈ f, Storable p := by
    simp [Storable]
  have ht : Terminated (writeSadieTap [(0, [[[1]]])]) :=
    terminated_writeSadieTap (by simp [Storable])
  obtain ⟨result, hresult, -⟩ := readSadieTap_writeSadieTap [[[[1]]]] (by simp) (by simp) hone
  have hserve : ServeSadie.readSadieTap (writeSadieTap [(0, [[[1]]])]) = .ok result := by
    have hagree := serveSadie_readSadieTap (writeSadieTap (numberTracks [[[[1]]]]))
    rw [hresult] at hagree
    cases hs : ServeSadie.readSadieTap (writeSadieTap (numberTracks [[[[1]]]])) with
    | error e =>
      rw [hs] at hagree
      cases hagree
    | ok r =>
      rw [hs] at hagree
      exact hs.trans (congrArg _ (Option.some.inj hagree))
  exact ⟨⟨result, hresult, ((readSadieTap_complete_iff _ result).1 hresult).mpr ht⟩,
    result, hserve, ((readSadieTap_complete_iff _ result).2 hserve).mpr ht⟩

/-- A medium of one track that is cut off in front of its end-of-medium marker reads as one
without tracks. -/
theorem readSadieTap_loses_last_track :
    ExtractTapeImages.readSadieTap (writeTrack (0, [[[1]]])) = .ok ∅ ∧
      ServeSadie.readSadieTap (writeTrack (0, [[[1]]])) = .ok ∅ ∧
      ¬ ∃ rest, writeTrack (0, [[[1]]]) = writeSadieTap (∅ : Dict ℕ (List LogicalFile)).items ++ rest := by
  have hloop : ExtractTapeImages.readSadieTapLoop ∅ [] [] none (writeTrack (0, [[[1]]])) = .ok ∅ := by
    rw [writeTrack, ExtractTapeImages.readSadieTapLoop_some (popLe32_append (by decide) _),
      if_neg (by decide), if_pos (by decide), if_neg (by simp)]
    have hfresh : (privateMarker ||| 0) &&& 0x0fffffff ∉ closeTrack ∅ [] none := Dict.not_mem_empty _
    simp only [if_neg hfresh]
    rw [← List.append_nil (List.flatMap writeFile _), readSadieTapLoop_files [[[1]]] (by simp [Storable]),
      ExtractTapeImages.readSadieTapLoop_none rfl]
    rfl
  have hextract : ExtractTapeImages.readSadieTap (writeTrack (0, [[[1]]])) = .ok ∅ := by
    rw [ExtractTapeImages.readSadieTap, hloop]
    rfl
  refine ⟨hextract, ?_, ?_⟩
  · have hagree := serveSadie_readSadieTap (writeTrack (0, [[[1]]]))
    rw [hextract] at hagree
    cases hs : ServeSadie.readSadieTap (writeTrack (0, [[[1]]])) with
    | error e =>
      rw [hs] at hagree
      cases hagree
    | ok r =>
      rw [hs] at hagree
      exact congrArg _ (Option.some.inj hagree)
  · rintro ⟨rest, h⟩
    have hhead : some (0 : Byte) = some 255 := congrArg List.head? h
    exact absurd hhead (by decide)

end S8000.Media.Simh
