import S8000.Media.Capture
import S8000.Media.SimhComplete

namespace S8000.Media.Capture

open Foundation Foundation.Bytes Foundation.Grouping Simh TccCrc
open Dump (Text)

/-- A block of a capture: file number, block number, payload. -/
abbrev Block := ℕ × ℕ × List Byte

/-- The block that a member holds, with `loaded` for its payload. -/
def blockOf (loaded : ℕ → ℕ → List Byte → List Byte) (numbers : Member → Option (ℕ × ℕ)) (m : Member) :
    Option Block :=
  match numbers m, m.contents with
  | some (fileNo, blockNo), some payload =>
    if isFilemark m.name then none else some (fileNo, blockNo, loaded fileNo blockNo payload)
  | _, _ => none

/-- The blocks of the installation tape; block 169 of file 8 is the stored one. -/
def installBlocks (src : Sources) (capture : List Member) : List Block :=
  capture.filterMap (blockOf
    (fun fileNo blockNo payload ↦ if fileNo = 8 ∧ blockNo = 169 then src.block169 else payload)
    fun m ↦ search nameRe m.name)

def sadieBlocks (capture : List Member) (track : ℕ) : List Block :=
  capture.filterMap (blockOf (fun _ _ payload ↦ payload) (sadieNumbers track))

/-- A tape has each block at its number in the file of its number, and nothing else. -/
def TapeKeeps (image : List Byte) (blocks : List Block) : Prop :=
  ∃ files, ExtractTapeImages.readTap image = .ok files ∧
    ∀ i k p, nth files i k = some p ↔ (i, k, p) ∈ blocks

/-- A medium has on each track the blocks of that track. -/
def MediumKeeps (image : List Byte) (blocks : ℕ → List Block) : Prop :=
  ∃ tracks, ExtractTapeImages.readSadieTap image = .ok tracks ∧
    ∀ t i k p, (tracks.get? t).bind (nth · i k) = some p ↔ (i, k, p) ∈ blocks t

section Order

instance : Std.Total recordLE := ⟨fun _ _ ↦ le_total _ _⟩

instance : IsTrans (ℕ × List Byte) recordLE := ⟨fun _ _ _ ↦ le_trans⟩

theorem fst_le_of_recordLE (a b : ℕ × List Byte) (h : recordLE a b) : a.1 ≤ b.1 := by
  rcases Prod.Lex.toLex_le_toLex.mp h with h | h
  · exact h.le
  · exact h.1.le

theorem payloads_sortRecords (d : Dict ℕ (List (ℕ × List Byte))) :
    payloads (sortRecords d) = layout recordLE d := by
  rw [payloads, layout, sortRecords, Dict.keys_mapValues]
  refine List.map_congr_left fun k hk ↦ ?_
  obtain ⟨records, hget⟩ := Dict.mem_iff_get?_eq_some.mp
    (Dict.mem_keys.mp ((List.mem_insertionSort _).mp hk))
  simp only [Dict.getD, Dict.get?_mapValues, hget, Option.map_some, Option.getD_some]

end Order

section Loop

variable {load : ℕ → ℕ → List Byte → Except BuildError (List Byte)}
  {loaded : ℕ → ℕ → List Byte → List Byte} {numbers : Member → Option (ℕ × ℕ)}
  {step : Reading → Member → Except BuildError Reading}

theorem readMember_cases {m : Member} {payload : List Byte} {fails : Bool}
    (h : readMember m = .ok (payload, fails)) : m.contents = some payload ∧ payload.length < 65535 := by
  rw [readMember] at h
  split at h
  · cases h
  rename_i contents hcontents
  split at h
  · cases h
  split at h
  · cases h
  rename_i encoded hencoded
  obtain ⟨rfl, -⟩ := Prod.mk.inj (Except.ok.inj h)
  rw [encodedLength] at hencoded
  split at hencoded
  · exact ⟨hcontents, by omega⟩
  · cases hencoded

/-- One member adds its block, if it has one. -/
theorem collect_spec (hload : ∀ f b p q, load f b p = .ok q → p.length < 65535 →
      q = loaded f b p ∧ q.length < 2 ^ 28)
    {st st' : Reading} {m : Member} {fileNo blockNo : ℕ} (hm : numbers m = some (fileNo, blockNo))
    (h : collect load st m fileNo blockNo = .ok st') :
    st'.grouped = (blockOf loaded numbers m).toList.foldl Dict.push st.grouped ∧
      ∀ b ∈ blockOf loaded numbers m, b.2.2.length < 2 ^ 28 := by
  rw [collect] at h
  split at h
  · cases h
  rename_i payload fails hread
  obtain ⟨hcontents, hlen⟩ := readMember_cases hread
  simp only at h
  split at h
  · rename_i hmark
    obtain rfl := Except.ok.inj h
    simp [blockOf, hm, hcontents, hmark]
  · rename_i hmark
    split at h
    · cases h
    rename_i payload' hpayload
    obtain ⟨rfl, hlen'⟩ := hload _ _ _ _ hpayload hlen
    obtain rfl := Except.ok.inj h
    have hblock : blockOf loaded numbers m = some (fileNo, blockNo, loaded fileNo blockNo payload) := by
      simp [blockOf, hm, hcontents, hmark]
    rw [hblock]
    refine ⟨rfl, ?_⟩
    rintro b ⟨⟩
    exact hlen'

theorem foldlM_spec (hload : ∀ f b p q, load f b p = .ok q → p.length < 65535 →
      q = loaded f b p ∧ q.length < 2 ^ 28)
    (hstep : ∀ st m, step st m = match numbers m with
      | none => .ok st
      | some (fileNo, blockNo) => collect load st m fileNo blockNo)
    (capture : List Member) {st st' : Reading} (h : capture.foldlM step st = .ok st') :
    st'.grouped = (capture.filterMap (blockOf loaded numbers)).foldl Dict.push st.grouped ∧
      ∀ b ∈ capture.filterMap (blockOf loaded numbers), b.2.2.length < 2 ^ 28 := by
  induction capture generalizing st with
  | nil =>
    obtain rfl := Except.ok.inj h
    exact ⟨rfl, by simp⟩
  | cons m capture ih =>
    rw [List.foldlM_cons] at h
    cases hm : step st m with
    | error e =>
      rw [hm] at h
      cases h
    | ok st₁ =>
      rw [hm] at h
      obtain ⟨hgrouped, hlen⟩ := ih h
      have hone : st₁.grouped = (blockOf loaded numbers m).toList.foldl Dict.push st.grouped ∧
          ∀ b ∈ blockOf loaded numbers m, b.2.2.length < 2 ^ 28 := by
        rw [hstep] at hm
        split at hm
        · rename_i hnone
          obtain rfl := Except.ok.inj hm
          simp [blockOf, hnone]
        · rename_i hnumbers
          exact collect_spec hload hnumbers hm
      obtain ⟨hfirst, hfirstLen⟩ := hone
      rw [hgrouped, hfirst]
      cases hblock : blockOf loaded numbers m with
      | none =>
        rw [List.filterMap_cons_none hblock]
        exact ⟨rfl, hlen⟩
      | some b =>
        rw [List.filterMap_cons_some hblock]
        refine ⟨rfl, ?_⟩
        intro c hc
        rcases List.mem_cons.mp hc with rfl | hc
        · exact hfirstLen c hblock
        · exact hlen c hc

end Loop

section Readers

theorem loadBlock169_ok {src : Sources} {block : List Byte} (h : loadBlock169 src = .ok block) :
    block = src.block169 ∧ block.length = tapeBlockSize := by
  unfold loadBlock169 at h
  simp only [bind, Except.bind, pure, Except.pure, throw, throwThe, MonadExceptOf.throw] at h
  split at h
  · cases h
  rename_i hlen
  split at h
  · cases h
  split at h
  · cases h
  split at h
  · cases h
  split at h
  · cases h
  obtain rfl := Except.ok.inj h
  exact ⟨rfl, not_not.mp hlen⟩

theorem loadInstall_ok {src : Sources} {fileNo blockNo : ℕ} {p q : List Byte}
    (h : loadInstall src fileNo blockNo p = .ok q) (hp : p.length < 65535) :
    q = (if fileNo = 8 ∧ blockNo = 169 then src.block169 else p) ∧ q.length < 2 ^ 28 := by
  rw [loadInstall] at h
  split at h
  · rename_i hplace
    obtain ⟨rfl, hlen⟩ := loadBlock169_ok h
    rw [if_pos hplace, hlen]
    exact ⟨rfl, by decide⟩
  · rename_i hplace
    obtain rfl := Except.ok.inj h
    rw [if_neg hplace]
    exact ⟨rfl, by omega⟩

theorem readInstallRecords_ok {src : Sources} {capture : List Member}
    {grouped : Dict ℕ (List (ℕ × List Byte))} (h : readInstallRecords src capture = .ok grouped) :
    grouped = sortRecords (Dict.groups (installBlocks src capture)) ∧
      ∀ b ∈ installBlocks src capture, b.2.2.length < 2 ^ 28 := by
  unfold readInstallRecords at h
  simp only [bind, Except.bind, pure, Except.pure, throw, throwThe, MonadExceptOf.throw] at h
  split at h
  · cases h
  rename_i st hloop
  obtain ⟨hgrouped, hlen⟩ := foldlM_spec (fun f b p q hq hp ↦ loadInstall_ok hq hp)
    (fun st m ↦ rfl) capture hloop
  split at h
  · cases h
  split at h
  · cases h
  split at h
  · cases h
  obtain rfl := Except.ok.inj h
  rw [hgrouped]
  exact ⟨rfl, hlen⟩

theorem readSadieRecords_ok {capture : List Member} {track : ℕ}
    {grouped : Dict ℕ (List (ℕ × List Byte))} (h : readSadieRecords capture track = .ok grouped) :
    grouped = sortRecords (Dict.groups (sadieBlocks capture track)) ∧
      ∀ b ∈ sadieBlocks capture track, b.2.2.length < 2 ^ 28 := by
  unfold readSadieRecords at h
  simp only [bind, Except.bind, pure, Except.pure, throw, throwThe, MonadExceptOf.throw] at h
  split at h
  · cases h
  rename_i st hloop
  have hload : ∀ (f b : ℕ) (p q : List Byte), Except.ok p = (Except.ok q : Except BuildError _) →
      p.length < 65535 → q = p ∧ q.length < 2 ^ 28 := by
    rintro f b p q ⟨⟩ hp
    exact ⟨rfl, by omega⟩
  obtain ⟨hgrouped, hlen⟩ := foldlM_spec hload (fun st m ↦ rfl) capture hloop
  split at h
  · cases h
  split at h
  · cases h
  obtain rfl := Except.ok.inj h
  rw [hgrouped]
  exact ⟨rfl, hlen⟩

theorem buildInstall_ok {src : Sources} {capture : List Member} {image : List Byte}
    (h : buildInstall src capture = .ok image) :
    image = writeTap (layout recordLE (Dict.groups (installBlocks src capture))) ∧
      ∀ b ∈ installBlocks src capture, b.2.2.length < 2 ^ 28 := by
  unfold buildInstall at h
  simp only [bind, Except.bind, pure, Except.pure] at h
  split at h
  · cases h
  rename_i grouped hgrouped
  obtain ⟨rfl, hlen⟩ := readInstallRecords_ok hgrouped
  obtain rfl := Except.ok.inj h
  rw [payloads_sortRecords]
  exact ⟨rfl, hlen⟩

/-- The files of a track, as they are laid out. -/
def trackFiles (capture : List Member) (track : ℕ) : List LogicalFile :=
  layout recordLE (Dict.groups (sadieBlocks capture track))

theorem mapM_readSadieRecords {capture : List Member} (tracks : List ℕ)
    {result : List (Dict ℕ (List (ℕ × List Byte)))}
    (h : tracks.mapM (readSadieRecords capture) = .ok result) :
    result.map payloads = tracks.map (trackFiles capture) ∧
      ∀ t ∈ tracks, ∀ b ∈ sadieBlocks capture t, b.2.2.length < 2 ^ 28 := by
  induction tracks generalizing result with
  | nil =>
    obtain rfl := Except.ok.inj h
    exact ⟨rfl, by simp⟩
  | cons t tracks ih =>
    rw [List.mapM_cons] at h
    simp only [bind, Except.bind, pure, Except.pure] at h
    split at h
    · cases h
    rename_i grouped hgrouped
    split at h
    · cases h
    rename_i rest hrest
    obtain rfl := Except.ok.inj h
    obtain ⟨rfl, hlen⟩ := readSadieRecords_ok hgrouped
    obtain ⟨hfiles, hlens⟩ := ih hrest
    refine ⟨?_, List.forall_mem_cons.mpr ⟨hlen, hlens⟩⟩
    rw [List.map_cons, List.map_cons, hfiles, payloads_sortRecords]
    rfl

theorem buildSadie_ok {capture : List Member} {image : List Byte}
    (h : buildSadie capture = .ok image) :
    image = writeSadieTap (numberTracks ((List.range 3).map (trackFiles capture))) ∧
      ∀ t < 3, ∀ b ∈ sadieBlocks capture t, b.2.2.length < 2 ^ 28 := by
  unfold buildSadie at h
  simp only [bind, Except.bind, pure, Except.pure] at h
  split at h
  · cases h
  rename_i tracks htracks
  obtain ⟨hfiles, hlens⟩ := mapM_readSadieRecords _ htracks
  obtain rfl := Except.ok.inj h
  rw [hfiles]
  exact ⟨rfl, fun t ht ↦ hlens t (List.mem_range.mpr ht)⟩

end Readers

section Image

/-- A reader of plain tapes returns no empty record. -/
theorem readTapLoop_nonempty {files result : List LogicalFile} {records : LogicalFile}
    {data : List Byte} (hrecords : ∀ p ∈ records, p ≠ []) (hfiles : ∀ f ∈ files, ∀ p ∈ f, p ≠ [])
    (h : ExtractTapeImages.readTapLoop files records data = .ok result) :
    ∀ f ∈ result, ∀ p ∈ f, p ≠ [] := by
  induction hn : data.length using Nat.strong_induction_on generalizing files records data with
  | _ n ih =>
  subst hn
  cases hpop : popLe32 data with
  | none =>
    rw [ExtractTapeImages.readTapLoop_none hpop] at h
    split at h
    · cases h
    · obtain rfl := Except.ok.inj h
      exact hfiles
  | some q =>
    obtain ⟨marker, rest⟩ := q
    have hlen := length_of_popLe32 hpop
    rw [ExtractTapeImages.readTapLoop_some hpop] at h
    split at h
    · split at h
      · cases h
      · obtain rfl := Except.ok.inj h
        exact hfiles
    split at h
    · refine ih rest.length (by omega) (by simp) ?_ h rfl
      intro f hf
      rcases List.mem_append.mp hf with hf | hf
      · exact hfiles f hf
      · rw [List.mem_singleton.mp hf]
        exact hrecords
    rename_i hzero
    split at h
    · cases h
    cases hr : readRecord marker rest with
    | error e =>
      rw [hr] at h
      cases h
    | ok q =>
      rw [hr] at h
      have hle := length_of_readRecord hr
      refine ih q.2.length (by omega) ?_ hfiles h rfl
      intro p hp
      rcases List.mem_append.mp hp with hp | hp
      · exact hrecords p hp
      · rw [List.mem_singleton.mp hp]
        have hpayload := (readRecord_cases hr).1
        rintro hnil
        rw [hnil] at hpayload
        exact hzero hpayload.symm

theorem mem_of_nth {files : List LogicalFile} {i k : ℕ} {p : List Byte} (h : nth files i k = some p) :
    ∃ f ∈ files, p ∈ f := by
  rw [nth, Option.bind_eq_some_iff] at h
  obtain ⟨f, hf, hp⟩ := h
  exact ⟨f, List.mem_of_getElem? hf, List.mem_of_getElem? hp⟩

theorem mem_of_mem_layout {blocks : List Block} {f : LogicalFile} {p : List Byte}
    (hf : f ∈ layout recordLE (Dict.groups blocks)) (hp : p ∈ f) : ∃ b ∈ blocks, b.2.2 = p := by
  obtain ⟨i, -, rfl⟩ := List.mem_map.mp hf
  obtain ⟨⟨k, p⟩, hmem, rfl⟩ := List.mem_map.mp hp
  exact ⟨(i, k, p), Dict.mem_getD_groups.mp ((List.mem_insertionSort _).mp hmem), rfl⟩

theorem storable_layout {blocks : List Block} (hlen : ∀ b ∈ blocks, b.2.2.length < 2 ^ 28)
    (hne : ∀ b ∈ blocks, b.2.2 ≠ []) :
    ∀ f ∈ layout recordLE (Dict.groups blocks), ∀ p ∈ f, Storable p := by
  intro f hf p hp
  obtain ⟨b, hb, rfl⟩ := mem_of_mem_layout hf hp
  exact ⟨hne b hb, hlen b hb⟩

theorem tapeKeeps_layout_iff {blocks : List Block} (hlen : ∀ b ∈ blocks, b.2.2.length < 2 ^ 28) :
    TapeKeeps (writeTap (layout recordLE (Dict.groups blocks))) blocks ↔
      Contiguous blocks ∧ ∀ b ∈ blocks, b.2.2 ≠ [] := by
  constructor
  · rintro ⟨files, hread, hfiles⟩
    have hne : ∀ b ∈ blocks, b.2.2 ≠ [] := by
      rintro ⟨i, k, p⟩ hb
      obtain ⟨f, hf, hp⟩ := mem_of_nth ((hfiles i k p).mpr hb)
      exact readTapLoop_nonempty (by simp) (by simp) hread f hf p hp
    rw [readTap_writeTap _ (storable_layout hlen hne)] at hread
    obtain rfl := Except.ok.inj hread
    exact ⟨Contiguous.of_nth_layout recordLE hfiles, hne⟩
  · rintro ⟨hcontiguous, hne⟩
    exact ⟨_, readTap_writeTap _ (storable_layout hlen hne),
      hcontiguous.nth_layout recordLE fst_le_of_recordLE⟩

theorem get?_of_items_numberTracks {tracks : List (List LogicalFile)}
    {result : Dict ℕ (List LogicalFile)} (h : result.items = numberTracks tracks) (t : ℕ) :
    result.get? t = tracks[t]? := by
  apply Option.ext
  intro files
  rw [Dict.get?_eq_some_iff, h, numberTracks, List.mem_map]
  constructor
  · rintro ⟨⟨f, i⟩, hmem, heq⟩
    obtain ⟨rfl, rfl⟩ := Prod.mk.inj heq
    exact List.mem_zipIdx_iff_getElem?.mp hmem
  · intro hget
    exact ⟨(files, t), List.mem_zipIdx_iff_getElem?.mpr hget, rfl⟩

theorem mediumKeeps_layout_iff {n : ℕ} (hpos : 0 < n) (hn : n ≤ 2 ^ 28) {blocks : ℕ → List Block}
    (hlen : ∀ t < n, ∀ b ∈ blocks t, b.2.2.length < 2 ^ 28) :
    MediumKeeps (writeSadieTap (numberTracks ((List.range n).map fun t ↦
        layout recordLE (Dict.groups (blocks t))))) blocks ↔
      (∀ t < n, Contiguous (blocks t)) ∧ (∀ t, n ≤ t → blocks t = []) ∧
        ∀ t, ∀ b ∈ blocks t, b.2.2 ≠ [] := by
  have hround : (∀ t, ∀ b ∈ blocks t, b.2.2 ≠ []) → ∃ result, ExtractTapeImages.readSadieTap
      (writeSadieTap (numberTracks ((List.range n).map fun t ↦
        layout recordLE (Dict.groups (blocks t))))) = .ok result ∧
      ∀ t, result.get? t = if t < n then some (layout recordLE (Dict.groups (blocks t))) else none := by
    intro hne
    obtain ⟨result, hresult, hitems⟩ := readSadieTap_writeSadieTap
      ((List.range n).map fun t ↦ layout recordLE (Dict.groups (blocks t)))
      (by simp only [ne_eq, List.map_eq_nil_iff, List.range_eq_nil]; omega) (by simpa using hn)
      (by
        intro files hfiles
        obtain ⟨t, ht, rfl⟩ := List.mem_map.mp hfiles
        exact storable_layout (hlen t (List.mem_range.mp ht)) (hne t))
    refine ⟨result, hresult, fun t ↦ ?_⟩
    rw [get?_of_items_numberTracks hitems, List.getElem?_map]
    split
    · rename_i ht
      rw [List.getElem?_range ht]
      rfl
    · rename_i ht
      rw [List.getElem?_eq_none (by simpa using ht)]
      rfl
  constructor
  · rintro ⟨tracks, hread, htracks⟩
    have hne : ∀ t, ∀ b ∈ blocks t, b.2.2 ≠ [] := by
      rintro t ⟨i, k, p⟩ hb
      obtain ⟨files, hfiles, hnth⟩ := Option.bind_eq_some_iff.mp ((htracks t i k p).mpr hb)
      obtain ⟨f, hf, hp⟩ := mem_of_nth hnth
      exact ((sound_empty.storable_result (readSadieTapLoop_of_readSadieTap hread) _
        (Dict.get?_eq_some_iff.mp hfiles)).2 f hf p hp).1
    obtain ⟨result, hresult, hget⟩ := hround hne
    rw [hread] at hresult
    obtain rfl := Except.ok.inj hresult
    simp only [hget] at htracks
    refine ⟨fun t ht ↦ Contiguous.of_nth_layout recordLE fun i k p ↦ ?_, fun t ht ↦ ?_, hne⟩
    · have hplace := htracks t i k p
      rwa [if_pos ht, Option.bind_some] at hplace
    · refine List.eq_nil_iff_forall_not_mem.mpr ?_
      rintro ⟨i, k, p⟩ hb
      have hplace := (htracks t i k p).mpr hb
      rw [if_neg (by omega)] at hplace
      cases hplace
  · rintro ⟨hcontiguous, hnil, hne⟩
    obtain ⟨result, hresult, hget⟩ := hround hne
    refine ⟨result, hresult, fun t i k p ↦ ?_⟩
    rw [hget]
    split
    · rename_i ht
      exact (hcontiguous t ht).nth_layout recordLE fst_le_of_recordLE i k p
    · rename_i ht
      rw [hnil t (by omega)]
      simp

end Image

section Examples

/-- Block 0 of file 0 of track 0. -/
def firstBlock : Member where
  name := ['T', 'R', 'K', '0', '_', 'F', 'I', 'L', 'E', '_', '0', '_', 'B', 'L', 'O', 'C', 'K', '_', '0',
    '_', 'C', 'R', 'C', '_', '0', 'C', '0', '6', '_']
  contents := some [1]

/-- Block 2 of the same file. -/
def thirdBlock : Member where
  name := ['T', 'R', 'K', '0', '_', 'F', 'I', 'L', 'E', '_', '0', '_', 'B', 'L', 'O', 'C', 'K', '_', '2',
    '_', 'C', 'R', 'C', '_', '0', 'C', '0', 'C', '_']
  contents := some [2]

theorem sadieBlocks_firstBlock (t : ℕ) :
    sadieBlocks [firstBlock] t = if t = 0 then [(0, 0, [1])] else [] := by
  have htrack : search trackRe firstBlock.name = some 0 := by decide
  by_cases ht : t = 0
  · subst ht
    decide
  · have hnone : sadieNumbers t firstBlock = none := by
      rw [sadieNumbers, htrack, if_neg fun h ↦ ht (Option.some.inj h).symm]
    rw [if_neg ht, sadieBlocks, List.filterMap_cons_none, List.filterMap_nil]
    rw [blockOf, hnone]

theorem contiguous_firstBlock (t : ℕ) : Contiguous (sadieBlocks [firstBlock] t) := by
  rw [sadieBlocks_firstBlock]
  split
  · constructor
    · simp
    · simp
    · simp
  · constructor
    · simp
    · simp
    · simp

theorem exists_ok {α ε : Type} {x : Except ε α} (h : x.toOption.isSome) : ∃ a, x = .ok a := by
  cases x with
  | error e => cases h
  | ok a => exact ⟨a, rfl⟩

end Examples

end S8000.Media.Capture
