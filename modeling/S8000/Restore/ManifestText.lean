import S8000.Restore.Entry

namespace S8000.Restore

open Foundation Foundation.Bytes Foundation.Numerals Foundation.Traversal
open Dump (Text)

variable {l : Line} {ls : List Line} {t : Text} {texts : List Text}

/-- The arguments of `manifest_line` that an inode gives it: signed ids of 16 bits, and times of 32 bits. -/
structure Line.Ranged (l : Line) : Prop where
  uid : -2 ^ 15 ≤ l.metadata.uid ∧ l.metadata.uid < 2 ^ 15
  gid : -2 ^ 15 ≤ l.metadata.gid ∧ l.metadata.gid < 2 ^ 15
  atime : -2 ^ 31 ≤ l.metadata.atime ∧ l.metadata.atime < 2 ^ 32
  mtime : -2 ^ 31 ≤ l.metadata.mtime ∧ l.metadata.mtime < 2 ^ 32

/-- The entry carries what its line says. -/
structure Carries (l : Line) (e : Entry) : Prop where
  kind : e.kind = l.kind.letter
  mode : e.mode.toNat = l.metadata.mode &&& 0o7777
  uid : (e.uid.toNat : ℤ) = l.metadata.uid % 2 ^ 32
  gid : (e.gid.toNat : ℤ) = l.metadata.gid % 2 ^ 32
  atime : e.atime = l.metadata.atime
  mtime : e.mtime = l.metadata.mtime
  aux : e.aux = encode l.aux
  path : e.path = encode l.path

/-- A signed number read as unsigned and cut to 32 bits. -/
theorem toNat_strtoul_decimal {i : ℤ} (h : -2 ^ 64 < i) (h' : i < 2 ^ 64) :
    ((BitVec.ofNat 32 (strtoul 10 (decimal i))).toNat : ℤ) = i % 2 ^ 32 := by
  have hread := strtoul_decimal h h'
  rw [BitVec.toNat_ofNat]
  push_cast
  rw [hread, Int.emod_emod_of_dvd i (by norm_num)]

theorem strtoll_of_time {i : ℤ} (h : -2 ^ 63 ≤ i) (h' : i < 2 ^ 63) : strtoll 10 (decimal i) = i := by
  rw [strtoll_decimal]
  omega

theorem carries_entry (h : l.Ranged) : Carries l l.entry where
  kind := rfl
  mode := by
    have hlt : l.metadata.mode &&& 0o7777 < 2 ^ 32 := lt_of_le_of_lt Nat.and_le_right (by decide)
    rw [Line.entry, BitVec.toNat_ofNat, Nat.mod_eq_of_lt hlt]
  uid := by
    obtain ⟨hle, hlt⟩ := h.uid
    exact toNat_strtoul_decimal (by omega) (by omega)
  gid := by
    obtain ⟨hle, hlt⟩ := h.gid
    exact toNat_strtoul_decimal (by omega) (by omega)
  atime := by
    obtain ⟨hle, hlt⟩ := h.atime
    exact strtoll_of_time (by omega) (by omega)
  mtime := by
    obtain ⟨hle, hlt⟩ := h.mtime
    exact strtoll_of_time (by omega) (by omega)
  aux := rfl
  path := rfl

/-- What the writer put into the manifest is what the replay reads from it. -/
theorem manifest_loses_nothing (hranged : ∀ l ∈ ls, l.Ranged) (hplain : ∀ l ∈ ls, l.Plain)
    (hwritten : ls.mapM manifestLine = .ok texts) :
    getlines (encode (manifestHeader ++ texts.flatten)) = manifestHeader :: texts.map encode ∧
      isSkipped manifestHeader ∧ (∀ t ∈ texts, isSkipped (encode t) = false) ∧
      ∃ es, readManifest (encode (manifestHeader ++ texts.flatten)) = some es ∧ List.Forall₂ Carries ls es := by
  obtain ⟨hsafe, rfl⟩ := mapM_manifestLine_eq_ok.mp hwritten
  refine ⟨?_, by decide, fun t ht ↦ ?_, ls.map Line.entry, readManifest_lines hsafe hplain, ?_⟩
  · rw [getlines_texts hsafe, List.map_map]
    rfl
  · obtain ⟨l, -, rfl⟩ := List.mem_map.mp ht
    exact l.isSkipped_text
  · rw [List.forall₂_map_right_iff, List.forall₂_same]
    exact fun l hl ↦ carries_entry (hranged l hl)

/-- A directory, a file of negative ids, a device, a link to the file and its removal. -/
def mixedLines : List Line :=
  [⟨.directory, ⟨0o40755, 0, 0, 0, 0⟩, ['-'], ['/', 'a']⟩,
    ⟨.file, ⟨0o104755, -1, 32767, 4294967295, -2147483648⟩, ['/', 't', ' ', 'x'], ['/', 'a', '/', 'é', '#']⟩,
    ⟨.char, ⟨0o20666, 3, 4, 5, 6⟩, ['2', '5', '7'], ['/', 'd']⟩,
    ⟨.link, ⟨0o104755, -1, 32767, 1, 2⟩, ['/', 'a', '/', 'é', '#'], ['/', 'b']⟩,
    ⟨.unlink, ⟨0, 0, 0, 0, 0⟩, ['-'], ['/', 'b']⟩]

theorem manifest_loses_nothing_mixed : ∃ texts es, mixedLines.mapM manifestLine = .ok texts ∧
    readManifest (encode (manifestHeader ++ texts.flatten)) = some es ∧ List.Forall₂ Carries mixedLines es := by
  have hsafe : ∀ l ∈ mixedLines, l.Safe := by decide +kernel
  have hplain : ∀ l ∈ mixedLines, l.Plain := by decide +kernel
  have hranged : ∀ l ∈ mixedLines, l.Ranged := by
    simp only [mixedLines, List.forall_mem_cons, List.not_mem_nil, false_imp_iff, implies_true, and_true]
    refine ⟨?_, ?_, ?_, ?_, ?_⟩ <;> exact ⟨by decide, by decide, by decide, by decide⟩
  have hwritten := mapM_manifestLine_eq_ok.mpr ⟨hsafe, rfl⟩
  obtain ⟨-, -, -, es, hread, hes⟩ := manifest_loses_nothing hranged hplain hwritten
  exact ⟨_, es, hwritten, hread, hes⟩

end S8000.Restore
