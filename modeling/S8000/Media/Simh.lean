import S8000.Foundation.Bytes
import S8000.Foundation.Dict
import Mathlib.Data.List.Sort
import Mathlib.Data.Nat.Bitwise

namespace S8000.Media.Simh

open Foundation Foundation.Bytes

/-- The records between two tape marks. -/
abbrev LogicalFile := List (List Byte)

def eom : ℕ := 0xffffffff
def privateMarker : ℕ := 0x70000000

/-- `write_record`; the length of a payload has 32 bits. -/
def writeRecord (payload : List Byte) : List Byte :=
  le32 payload.length ++ payload ++ (if payload.length % 2 = 1 then [0] else []) ++
    le32 payload.length

def writeFile (records : LogicalFile) : List Byte := records.flatMap writeRecord ++ le32 0

/-- `write_tap`. -/
def writeTap (files : List LogicalFile) : List Byte := files.flatMap writeFile ++ le32 eom

def writeTrack (track : ℕ × List LogicalFile) : List Byte :=
  le32 (privateMarker ||| track.1) ++ track.2.flatMap writeFile

/-- The image that `build_sadie` lays out. -/
def writeSadieTap (tracks : List (ℕ × List LogicalFile)) : List Byte :=
  tracks.flatMap writeTrack ++ le32 eom

inductive TapError where
  | unsupportedMarker (marker : ℕ)
  | truncatedRecord
  | mismatchedLength
  | unterminatedFile
  | noTrackMarkers
  | invalidEndOfMedium
  | markerInsideFile
  | duplicateTrack (track : ℕ)
  | dataBeforeMarker
  | nonContiguousTracks (tracks : List ℕ)
deriving DecidableEq

/-- The part of the readers behind the length of a record: the payload, its padding, and the
length again. -/
def readRecord (marker : ℕ) (data : List Byte) : Except TapError (List Byte × List Byte) :=
  if (data.take marker).length ≠ marker then .error .truncatedRecord
  else match popLe32 (data.drop (marker + marker % 2)) with
    | none => .error .mismatchedLength
    | some (trailing, rest) =>
      if trailing ≠ marker then .error .mismatchedLength else .ok (data.take marker, rest)

theorem length_of_popLe32 {data rest : List Byte} {n : ℕ} (h : popLe32 data = some (n, rest)) :
    data.length = rest.length + 4 := by
  rw [eq_append_of_popLe32 h, List.length_append, length_le32, Nat.add_comm]

theorem readRecord_cases {marker : ℕ} {data payload rest : List Byte}
    (h : readRecord marker data = .ok (payload, rest)) :
    payload.length = marker ∧ ∃ padding, padding.length = marker % 2 ∧
      data = payload ++ padding ++ le32 marker ++ rest := by
  rw [readRecord] at h
  split at h
  · cases h
  rename_i hlen
  rw [ne_eq, not_not] at hlen
  split at h
  · cases h
  rename_i trailing rest' hpop
  split at h
  · cases h
  rename_i htrailing
  rw [ne_eq, not_not] at htrailing
  subst htrailing
  simp only [Except.ok.injEq, Prod.mk.injEq] at h
  obtain ⟨rfl, rfl⟩ := h
  have hdrop := eq_append_of_popLe32 hpop
  refine ⟨hlen, (data.drop trailing).take (trailing % 2), ?_, ?_⟩
  · have hbound := congrArg List.length hdrop
    rw [List.length_append, length_le32, List.length_drop] at hbound
    rw [List.length_take, List.length_drop]
    omega
  · rw [List.append_assoc, ← hdrop, ← List.drop_drop, List.append_assoc, List.take_append_drop,
      List.take_append_drop]

theorem length_of_readRecord {marker : ℕ} {data payload rest : List Byte}
    (h : readRecord marker data = .ok (payload, rest)) : rest.length ≤ data.length := by
  obtain ⟨-, padding, -, rfl⟩ := readRecord_cases h
  simp only [List.length_append]
  omega

theorem readRecord_append (payload padding rest : List Byte) (hp : padding.length = payload.length % 2)
    (hlen : payload.length < 4294967296) :
    readRecord payload.length (payload ++ padding ++ le32 payload.length ++ rest) =
      .ok (payload, rest) := by
  have htake : (payload ++ padding ++ le32 payload.length ++ rest).take payload.length = payload := by
    rw [List.append_assoc, List.append_assoc, List.take_left]
  have hdrop : (payload ++ padding ++ le32 payload.length ++ rest).drop
      (payload.length + payload.length % 2) = le32 payload.length ++ rest := by
    rw [← hp, ← List.length_append, List.append_assoc, List.drop_left]
  rw [readRecord, htake, hdrop, popLe32_append hlen]
  simp

/-- `if track is not None: tracks[track] = files`. -/
def closeTrack (tracks : Dict ℕ (List LogicalFile)) (files : List LogicalFile) :
    Option ℕ → Dict ℕ (List LogicalFile)
  | none => tracks
  | some track => tracks.set track files

namespace ExtractTapeImages

/-- The loop of `read_tap`, from the files and records so far; the medium ends at its marker
or at the last whole word. -/
def readTapLoop (files : List LogicalFile) (records : LogicalFile) (data : List Byte) :
    Except TapError (List LogicalFile) :=
  match _h : popLe32 data with
  | none => if records ≠ [] then .error .unterminatedFile else .ok files
  | some (marker, rest) =>
    if marker = 0xffffffff then if records ≠ [] then .error .unterminatedFile else .ok files
    else if marker = 0 then readTapLoop (files ++ [records]) [] rest
    else if marker &&& 0xf0000000 ≠ 0 then .error (.unsupportedMarker marker)
    else match _hr : readRecord marker rest with
      | .error e => .error e
      | .ok (payload, rest') => readTapLoop files (records ++ [payload]) rest'
termination_by data.length
decreasing_by
  · have := length_of_popLe32 _h
    omega
  · have := length_of_popLe32 _h
    have := length_of_readRecord _hr
    omega

def readTap (data : List Byte) : Except TapError (List LogicalFile) := readTapLoop [] [] data

section Step

variable {files : List LogicalFile} {records : LogicalFile} {data rest : List Byte} {marker : ℕ}

theorem readTapLoop_none (h : popLe32 data = none) :
    readTapLoop files records data =
      if records ≠ [] then .error .unterminatedFile else .ok files := by
  rw [readTapLoop]
  split
  · rfl
  · simp_all

theorem readTapLoop_some (h : popLe32 data = some (marker, rest)) :
    readTapLoop files records data =
      if marker = 0xffffffff then if records ≠ [] then .error .unterminatedFile else .ok files
      else if marker = 0 then readTapLoop (files ++ [records]) [] rest
      else if marker &&& 0xf0000000 ≠ 0 then .error (.unsupportedMarker marker)
      else match readRecord marker rest with
        | .error e => .error e
        | .ok (payload, rest') => readTapLoop files (records ++ [payload]) rest' := by
  rw [readTapLoop]
  split
  · simp_all
  · rename_i marker' rest' h'
    obtain ⟨rfl, rfl⟩ : marker' = marker ∧ rest' = rest := by simpa [h] using h'.symm
    congr 3
    split <;> simp_all

end Step

/-- The loop of `read_sadie_tap`. -/
def readSadieTapLoop (tracks : Dict ℕ (List LogicalFile)) (files : List LogicalFile)
    (records : LogicalFile) (currentTrack : Option ℕ) (data : List Byte) :
    Except TapError (Dict ℕ (List LogicalFile)) :=
  match _h : popLe32 data with
  | none => .ok tracks
  | some (marker, rest) =>
    if marker = 0xffffffff then
      match currentTrack with
      | none => .error .noTrackMarkers
      | some track => if records ≠ [] then .error .unterminatedFile else .ok (tracks.set track files)
    else if marker &&& 0xf0000000 = privateMarker then
      if records ≠ [] then .error .markerInsideFile
      else
        let tracks := closeTrack tracks files currentTrack
        if marker &&& 0x0fffffff ∈ tracks then .error (.duplicateTrack (marker &&& 0x0fffffff))
        else readSadieTapLoop tracks [] [] (some (marker &&& 0x0fffffff)) rest
    else match currentTrack with
      | none => .error .dataBeforeMarker
      | some track =>
        if marker = 0 then readSadieTapLoop tracks (files ++ [records]) [] (some track) rest
        else if marker &&& 0xf0000000 ≠ 0 then .error (.unsupportedMarker marker)
        else match _hr : readRecord marker rest with
          | .error e => .error e
          | .ok (payload, rest') =>
            readSadieTapLoop tracks files (records ++ [payload]) (some track) rest'
termination_by data.length
decreasing_by
  · have := length_of_popLe32 _h
    omega
  · have := length_of_popLe32 _h
    omega
  · have := length_of_popLe32 _h
    have := length_of_readRecord _hr
    omega

def readSadieTap (data : List Byte) : Except TapError (Dict ℕ (List LogicalFile)) :=
  match readSadieTapLoop ∅ [] [] none data with
  | .error e => .error e
  | .ok tracks =>
    if tracks.keys.insertionSort (· ≤ ·) ≠ List.range tracks.keys.length then
      .error (.nonContiguousTracks (tracks.keys.insertionSort (· ≤ ·)))
    else .ok tracks

section SadieStep

variable {tracks : Dict ℕ (List LogicalFile)} {files : List LogicalFile} {records : LogicalFile}
  {track : Option ℕ} {data rest : List Byte} {marker : ℕ}

theorem readSadieTapLoop_none (h : popLe32 data = none) :
    readSadieTapLoop tracks files records track data = .ok tracks := by
  rw [readSadieTapLoop.eq_def]
  split
  · rfl
  · simp_all

theorem readSadieTapLoop_some (h : popLe32 data = some (marker, rest)) :
    readSadieTapLoop tracks files records track data =
      if marker = 0xffffffff then
        match track with
        | none => .error .noTrackMarkers
        | some track => if records ≠ [] then .error .unterminatedFile else .ok (tracks.set track files)
      else if marker &&& 0xf0000000 = privateMarker then
        if records ≠ [] then .error .markerInsideFile
        else
          let tracks := closeTrack tracks files track
          if marker &&& 0x0fffffff ∈ tracks then .error (.duplicateTrack (marker &&& 0x0fffffff))
          else readSadieTapLoop tracks [] [] (some (marker &&& 0x0fffffff)) rest
      else match track with
        | none => .error .dataBeforeMarker
        | some track =>
          if marker = 0 then readSadieTapLoop tracks (files ++ [records]) [] (some track) rest
          else if marker &&& 0xf0000000 ≠ 0 then .error (.unsupportedMarker marker)
          else match readRecord marker rest with
            | .error e => .error e
            | .ok (payload, rest') =>
              readSadieTapLoop tracks files (records ++ [payload]) (some track) rest' := by
  rw [readSadieTapLoop.eq_def]
  split
  · simp_all
  · rename_i marker' rest' h'
    obtain ⟨rfl, rfl⟩ : marker' = marker ∧ rest' = rest := by simpa [h] using h'.symm
    congr 2
    cases track with
    | none => rfl
    | some track =>
      simp only
      congr 2
      split <;> simp_all

end SadieStep

end ExtractTapeImages

namespace ServeTape

/-- The loop of `read_tap`; a file is kept as one string. -/
def readTapLoop (files : List (List Byte)) (records : LogicalFile) (data : List Byte) :
    Except TapError (List (List Byte)) :=
  match _h : popLe32 data with
  | none => if records ≠ [] then .error .unterminatedFile else .ok files
  | some (marker, rest) =>
    if marker = 0xffffffff then if records ≠ [] then .error .unterminatedFile else .ok files
    else if marker = 0 then readTapLoop (files ++ [records.flatten]) [] rest
    else if marker &&& 0xf0000000 ≠ 0 then .error (.unsupportedMarker marker)
    else match _hr : readRecord marker rest with
      | .error e => .error e
      | .ok (payload, rest') => readTapLoop files (records ++ [payload]) rest'
termination_by data.length
decreasing_by
  · have := length_of_popLe32 _h
    omega
  · have := length_of_popLe32 _h
    have := length_of_readRecord _hr
    omega

def readTap (data : List Byte) : Except TapError (List (List Byte)) := readTapLoop [] [] data

section Step

variable {files : List (List Byte)} {records : LogicalFile} {data rest : List Byte} {marker : ℕ}

theorem readTapLoop_none (h : popLe32 data = none) :
    readTapLoop files records data =
      if records ≠ [] then .error .unterminatedFile else .ok files := by
  rw [readTapLoop]
  split
  · rfl
  · simp_all

theorem readTapLoop_some (h : popLe32 data = some (marker, rest)) :
    readTapLoop files records data =
      if marker = 0xffffffff then if records ≠ [] then .error .unterminatedFile else .ok files
      else if marker = 0 then readTapLoop (files ++ [records.flatten]) [] rest
      else if marker &&& 0xf0000000 ≠ 0 then .error (.unsupportedMarker marker)
      else match readRecord marker rest with
        | .error e => .error e
        | .ok (payload, rest') => readTapLoop files (records ++ [payload]) rest' := by
  rw [readTapLoop]
  split
  · simp_all
  · rename_i marker' rest' h'
    obtain ⟨rfl, rfl⟩ : marker' = marker ∧ rest' = rest := by simpa [h] using h'.symm
    congr 3
    split <;> simp_all

end Step

end ServeTape

namespace ServeSadie

/-- The loop of `read_sadie_tap`, which tests the track and the records at the end of the
medium together. -/
def readSadieTapLoop (tracks : Dict ℕ (List LogicalFile)) (files : List LogicalFile)
    (records : LogicalFile) (track : Option ℕ) (data : List Byte) :
    Except TapError (Dict ℕ (List LogicalFile)) :=
  match _h : popLe32 data with
  | none => .ok tracks
  | some (marker, rest) =>
    if marker = 0xffffffff then
      match track with
      | none => .error .invalidEndOfMedium
      | some track => if records ≠ [] then .error .invalidEndOfMedium else .ok (tracks.set track files)
    else if marker &&& 0xf0000000 = privateMarker then
      if records ≠ [] then .error .markerInsideFile
      else
        let tracks := closeTrack tracks files track
        if marker &&& 0x0fffffff ∈ tracks then .error (.duplicateTrack (marker &&& 0x0fffffff))
        else readSadieTapLoop tracks [] [] (some (marker &&& 0x0fffffff)) rest
    else match track with
      | none => .error .dataBeforeMarker
      | some track =>
        if marker = 0 then readSadieTapLoop tracks (files ++ [records]) [] (some track) rest
        else if marker &&& 0xf0000000 ≠ 0 then .error (.unsupportedMarker marker)
        else match _hr : readRecord marker rest with
          | .error e => .error e
          | .ok (payload, rest') =>
            readSadieTapLoop tracks files (records ++ [payload]) (some track) rest'
termination_by data.length
decreasing_by
  · have := length_of_popLe32 _h
    omega
  · have := length_of_popLe32 _h
    omega
  · have := length_of_popLe32 _h
    have := length_of_readRecord _hr
    omega

def readSadieTap (data : List Byte) : Except TapError (Dict ℕ (List LogicalFile)) :=
  match readSadieTapLoop ∅ [] [] none data with
  | .error e => .error e
  | .ok tracks =>
    if tracks.keys.insertionSort (· ≤ ·) ≠ List.range tracks.keys.length then
      .error (.nonContiguousTracks (tracks.keys.insertionSort (· ≤ ·)))
    else .ok tracks

section SadieStep

variable {tracks : Dict ℕ (List LogicalFile)} {files : List LogicalFile} {records : LogicalFile}
  {track : Option ℕ} {data rest : List Byte} {marker : ℕ}

theorem readSadieTapLoop_none (h : popLe32 data = none) :
    readSadieTapLoop tracks files records track data = .ok tracks := by
  rw [readSadieTapLoop.eq_def]
  split
  · rfl
  · simp_all

theorem readSadieTapLoop_some (h : popLe32 data = some (marker, rest)) :
    readSadieTapLoop tracks files records track data =
      if marker = 0xffffffff then
        match track with
        | none => .error .invalidEndOfMedium
        | some track => if records ≠ [] then .error .invalidEndOfMedium else .ok (tracks.set track files)
      else if marker &&& 0xf0000000 = privateMarker then
        if records ≠ [] then .error .markerInsideFile
        else
          let tracks := closeTrack tracks files track
          if marker &&& 0x0fffffff ∈ tracks then .error (.duplicateTrack (marker &&& 0x0fffffff))
          else readSadieTapLoop tracks [] [] (some (marker &&& 0x0fffffff)) rest
      else match track with
        | none => .error .dataBeforeMarker
        | some track =>
          if marker = 0 then readSadieTapLoop tracks (files ++ [records]) [] (some track) rest
          else if marker &&& 0xf0000000 ≠ 0 then .error (.unsupportedMarker marker)
          else match readRecord marker rest with
            | .error e => .error e
            | .ok (payload, rest') =>
              readSadieTapLoop tracks files (records ++ [payload]) (some track) rest' := by
  rw [readSadieTapLoop.eq_def]
  split
  · simp_all
  · rename_i marker' rest' h'
    obtain ⟨rfl, rfl⟩ : marker' = marker ∧ rest' = rest := by simpa [h] using h'.symm
    congr 2
    cases track with
    | none => rfl
    | some track =>
      simp only
      congr 2
      split <;> simp_all

end SadieStep

end ServeSadie

end S8000.Media.Simh
