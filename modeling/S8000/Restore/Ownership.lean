import S8000.Restore.Replay

namespace S8000.Restore

open Foundation Foundation.Bytes Foundation.Numerals V7
open Dump (Text be16)

section Ids

/-- The id that `parse_entry` reads from the field of a signed 16-bit id. -/
def parsedId (w : Word) : BitVec 32 := BitVec.ofNat 32 (strtoul 10 (decimal w.toInt))

theorem parsedId_toNat (w : Word) :
    (parsedId w).toNat = if w.toNat < 32768 then w.toNat else w.toNat + 4294901760 := by
  have hlt := w.isLt
  have hint : w.toInt = if w.toNat < 32768 then (w.toNat : ℤ) else w.toNat - 65536 := by
    rw [BitVec.toInt_eq_toNat_cond]
    split_ifs <;> omega
  have hread : (strtoul 10 (decimal w.toInt) : ℤ) = w.toInt % 2 ^ 64 := by
    refine strtoul_decimal ?_ ?_ <;> rw [hint] <;> split_ifs <;> omega
  rw [parsedId, BitVec.toNat_ofNat]
  rw [hint] at hread ⊢
  split_ifs at hread ⊢ <;> omega

theorem parsedId_eq_neg_one {w : Word} : parsedId w = -1 ↔ w = -1 := by
  rw [← BitVec.toNat_inj, ← BitVec.toNat_inj, parsedId_toNat]
  have hlt := w.isLt
  have h32 : (-1 : BitVec 32).toNat = 4294967295 := by decide
  have h16 : (-1 : Word).toNat = 65535 := by decide
  rw [h32, h16]
  split_ifs <;> omega

theorem mapHostId_parsedId (w : Word) :
    (mapHostId (parsedId w)).toNat = if w.toNat < 32768 then w.toNat else 32767 := by
  have hlt := w.isLt
  have hid := parsedId_toNat w
  unfold mapHostId maxUidGid
  by_cases h : w.toNat < 32768
  · rw [if_pos h] at hid
    have hne : ¬ (parsedId w = 65534 ∨ 32767 < (parsedId w).toNat) := by
      rw [← BitVec.toNat_inj, hid, show (65534 : BitVec 32).toNat = 65534 from rfl]
      omega
    rw [if_neg hne, if_pos h, BitVec.toNat_setWidth, hid]
    omega
  · rw [if_neg h] at hid
    rw [if_pos (.inr (by omega)), if_neg h]
    rfl

theorem throughChar_toNat (host : Host) (id : Word) :
    (throughChar host id).toNat =
      if host.signedChar ∧ 128 ≤ id.toNat % 256 then id.toNat % 256 + 65280 else id.toNat % 256 := by
  have hlt := id.isLt
  unfold throughChar
  cases host.signedChar with
  | false =>
    simp only [Bool.false_eq_true, if_false, false_and, BitVec.toNat_setWidth]
    omega
  | true =>
    simp only [if_true, true_and, BitVec.toNat_signExtend, BitVec.msb_eq_decide, BitVec.toNat_setWidth,
      decide_eq_true_eq]
    split_ifs <;> omega

/-- The ids that a `char` holds, and the one that `v7fs_chown` leaves alone, where it is already
in place. -/
def Survives (host : Host) (old w : Word) : Prop :=
  w.toNat < (if host.signedChar then 128 else 256) ∨ w = -1 ∧ old = -1

theorem chownId_parsedId_eq (host : Host) (old w : Word) :
    chownId host old (parsedId w) = w ↔ Survives host old w := by
  have hlt := w.isLt
  have h16 : (-1 : Word).toNat = 65535 := by decide
  unfold chownId Survives
  by_cases hw : w = -1
  · rw [if_pos (parsedId_eq_neg_one.mpr hw)]
    have hbig : ¬ w.toNat < (if host.signedChar then 128 else 256) := by
      rw [hw, h16]
      split_ifs <;> omega
    rw [or_iff_right hbig, and_iff_right hw, hw]
  · rw [if_neg (parsedId_eq_neg_one.not.mpr hw), ← BitVec.toNat_inj, throughChar_toNat,
      mapHostId_parsedId]
    simp only [hw, false_and, or_false]
    have hne : w.toNat ≠ 65535 := fun h ↦ hw (BitVec.eq_of_toNat_eq (h.trans h16.symm))
    cases host.signedChar <;> simp only [Bool.false_eq_true, false_and, true_and, if_true, if_false] <;>
      split_ifs <;> omega

end Ids

/-- The uid and gid of an inode. -/
def V7.Fs.owner? (fs : Fs) (i : ℕ) : Option (Word × Word) := (fs.inodes.get? i).map fun p ↦ (p.uid, p.gid)

/-- The line of a dump inode. -/
def dumpLine (kind : Kind) (dinode : List Byte) (aux path : Plain) : Line :=
  ⟨kind, dumpMetadata (Dump.parseDinode dinode), aux.val, path.val⟩

/-- What becomes of an id `w` of the dump: one that every `char` holds is stored, `-1` leaves the id of
the inode alone, and no other negative id can be stored. -/
structure Restores (old w stored : Word) : Prop where
  small : w.toNat < 128 → stored = w
  unchanged : w = -1 → stored = old
  negative : w.toInt < -1 → stored ≠ w

theorem restores_chownId (host : Host) (old w : Word) : Restores old w (chownId host old (parsedId w)) where
  small h := by
    refine (chownId_parsedId_eq host old w).mpr (.inl ?_)
    split_ifs <;> omega
  unchanged h := by
    rw [chownId, if_pos (parsedId_eq_neg_one.mpr h)]
  negative h heq := by
    rw [BitVec.toInt_eq_toNat_cond] at h
    rcases (chownId_parsedId_eq host old w).mp heq with hw | ⟨hw, -⟩
    · split_ifs at h hw <;> omega
    · rw [hw] at h
      exact absurd h (by decide)

section Chain

variable {host : Host} {fs : Fs} {dinode : List Byte} {kind : Kind} {aux path : Plain} {text : Text}
  {e : Entry} {i failures : ℕ} {old : Inode}

/-- The ids of a dump inode on their way through the manifest into the inode of the path. -/
theorem ownership_restored (htext : manifestLine (dumpLine kind dinode aux path) = .ok text)
    (he : parseEntry (encode text) = some e) (hi : fs.namei e.path = .ok i)
    (hold : fs.inodes.get? i = some old) :
    ∃ uid gid, (setMetadata host e ⟨fs, failures⟩).fs.owner? i = some (uid, gid) ∧
      Restores old.uid (be16 dinode 4) uid ∧ Restores old.gid (be16 dinode 6) gid := by
  obtain ⟨hsafe, rfl⟩ := manifestLine_eq_ok.mp htext
  rw [Line.parseEntry_text hsafe ⟨aux.2, path.2⟩] at he
  obtain rfl := Option.some.inj he
  refine ⟨_, _, ?_, restores_chownId host old.uid (be16 dinode 4),
    restores_chownId host old.gid (be16 dinode 6)⟩
  rw [V7.Fs.owner?, (setMetadata_of_ok hi).1, if_pos rfl, hold]
  rfl

end Chain

section Example

/-- A file system with the file `/f`. -/
def oneFile : Fs where
  inodes := (Dict.set ∅ 2 ⟨.directory [some (['.'], 2), some (['.', '.'], 2), some (['f'], 3)],
    0o755, 2, 0, 0, 0, 0⟩).set 3 ⟨.regular [], 0o644, 1, 0, 0, 0, 0⟩
  calls := 0

/-- A host with an empty disk queue and signed characters. -/
def idleHost : Host where
  clock _ := 0
  signedChar := true
  files _ := none
  pick _ := none
  slotRoom _ _ := false
  dataRoom _ _ _ := 0
  raw fs _ := fs

/-- A dump inode with the uid `-2` and the gid 7. -/
def negativeDinode : List Byte := [0x81, 0xA4, 0, 1, 0xFF, 0xFE, 0, 7]

theorem dash_plain : '\x00' ∉ ['-'] := by decide

theorem slashF_plain : '\x00' ∉ ['/', 'f'] := by decide

theorem ownership_restored_oneFile : ∃ uid gid,
    (setMetadata idleHost (dumpLine .file negativeDinode ⟨['-'], dash_plain⟩
      ⟨['/', 'f'], slashF_plain⟩).entry ⟨oneFile, 0⟩).fs.owner? 3 = some (uid, gid) ∧
    Restores 0 (be16 negativeDinode 4) uid ∧ Restores 0 (be16 negativeDinode 6) gid :=
  ownership_restored (manifestLine_eq_ok.mpr ⟨by decide, rfl⟩)
    (Line.parseEntry_text (by decide) (by decide)) (by decide)
    (show oneFile.inodes.get? 3 = some ⟨.regular [], 0o644, 1, 0, 0, 0, 0⟩ by decide)

/-- The owner of the dump is not the owner of the file. -/
theorem negative_uid_lost : ∃ text e,
    manifestLine (dumpLine .file negativeDinode ⟨['-'], dash_plain⟩ ⟨['/', 'f'], slashF_plain⟩) = .ok text ∧
    parseEntry (encode text) = some e ∧ oneFile.namei e.path = .ok 3 ∧
    (setMetadata idleHost e ⟨oneFile, 0⟩).fs.owner? 3 ≠
      some (be16 negativeDinode 4, be16 negativeDinode 6) := by
  refine ⟨_, _, manifestLine_eq_ok.mpr ⟨by decide, rfl⟩, Line.parseEntry_text (by decide) (by decide),
    by decide, by decide⟩

end Example

end S8000.Restore
