import S8000.Dump.Tree
import S8000.Foundation.Grouping
import S8000.Media.SimhRoundTrip
import S8000.Media.TccCrc
import Mathlib.Data.Prod.Lex
import Mathlib.Data.List.Lex

namespace S8000.Media.Capture

open Foundation Foundation.Bytes Foundation.Grouping Simh TccCrc
open Dump (Text be16 be32 wordSum magic checksum tsInode)

section Names

/-- `re.search`: the leftmost place at which a pattern matches. -/
def search {α : Type} (pattern : Text → Option α) : Text → Option α
  | [] => pattern []
  | c :: s => (pattern (c :: s)).orElse fun _ ↦ search pattern s

/-- `(\d+)`, read as a number. -/
def number (s : Text) : Option (ℕ × Text) :=
  if s.takeWhile Char.isDigit = [] then none
  else some (Nat.ofDigitChars 10 (s.takeWhile Char.isDigit) 0, s.dropWhile Char.isDigit)

/-- `NAME_RE`. -/
def nameRe (s : Text) : Option (ℕ × ℕ) := do
  let s ← s.dropPrefix? ['_', 'F', 'I', 'L', 'E', '_']
  let (fileNo, s) ← number s
  let s ← s.dropPrefix? ['_', 'B', 'L', 'O', 'C', 'K', '_']
  let (blockNo, s) ← number s
  let _ ← s.dropPrefix? ['_']
  return (fileNo, blockNo)

/-- The value of a character of `[0-9A-F]`. -/
def hexDigit (c : Char) : Option ℕ :=
  if c.isDigit then some (c.toNat - 48)
  else if 'A' ≤ c ∧ c ≤ 'F' then some (c.toNat - 55)
  else none

/-- `CRC_RE`, with the bytes of its four digits. -/
def crcRe (s : Text) : Option (List Byte) := do
  match ← s.dropPrefix? ['_', 'C', 'R', 'C', '_'] with
  | a :: b :: c :: d :: '_' :: _ =>
    let a ← hexDigit a
    let b ← hexDigit b
    let c ← hexDigit c
    let d ← hexDigit d
    return [BitVec.ofNat 8 (16 * a + b), BitVec.ofNat 8 (16 * c + d)]
  | _ => none

/-- `TRACK_RE`. -/
def trackRe (s : Text) : Option ℕ := do
  let s ← s.dropPrefix? ['T', 'R', 'K']
  let (track, _) ← number s
  return track

/-- `"FILEMARK" in member.name`. -/
def isFilemark (name : Text) : Bool :=
  (search (·.dropPrefix? ['F', 'I', 'L', 'E', 'M', 'A', 'R', 'K']) name).isSome

end Names

/-- A member of the archive of a capture; a directory has no contents. -/
structure Member where
  name : Text
  contents : Option (List Byte)

/-- The independently recovered files. -/
inductive Repair where
  | boot | ftBC | ftB | manContents | manMContents | xq
deriving DecidableEq

def Repair.all : List Repair := [.boot, .ftBC, .ftB, .manContents, .manMContents, .xq]

/-- The names under which the recovered archive has them. -/
def Repair.name : Repair → String
  | .boot => "usr/boot"
  | .ftBC => "usr/lib/font/ftBC"
  | .ftB => "usr/lib/font/ftB"
  | .manContents => "usr/man/.contents"
  | .manMContents => "usr/man/manM/.contents"
  | .xq => "usr/man/manM/xq.M"

/-- `REPAIR_HASHES`. -/
def Repair.hash : Repair → String
  | .boot => "9064564f79f97580fb1e3f517da3cb8fa529e07d31c904b64f8c4f3c401e320e"
  | .ftBC => "549fb48c786f59672cdfb25f6cc654aabdb22655a25f9c1877fe832a6a754568"
  | .ftB => "c871545e0ca31fb98d18dbe9ab46f4bb2dad52a4f4cc203e336efeedbc05cf48"
  | .manContents => "16563a22c5422aeaa8ead77ca04b67269d0536f86f65a682eff52011fc6ca93d"
  | .manMContents => "8ad034b2a3d17ec98a2e748f77274200b857b243a30cc764a549608e201670df"
  | .xq => "2f9cfabc23396606b47af36a86928717cd4152fca315f83f33ed434ba3096e99"

def file1Hash : String := "1c038e3d0f640e0fade2b842fd6b221a3742666033e43b643b837e3779cf7d2c"
def file1Records : ℕ := 45
def tapeRecordSize : ℕ := 512
def tapeBlockSize : ℕ := 10240
def block169Hash : String := "dbebce3cae7a171e1a925cd1ca761a83b4425eee92ab47a672044b2a37e9de5a"

/-- `BLOCK_169_LAYOUT`: first record, file, first block of the file, number of blocks. -/
def block169Layout : List (ℕ × Repair × ℕ × ℕ) :=
  [(0, .ftBC, 0, 1), (2, .ftB, 0, 1), (4, .manContents, 0, 1), (6, .manMContents, 0, 4),
    (11, .xq, 0, 9)]

def block169Inodes : List ℕ := [1, 3, 5, 10]

/-- What the builder reads besides a capture: the stored block 169, the archive of the recovered
`/usr`, and the digests of `hashlib`. -/
structure Sources where
  block169 : List Byte
  recoveredUsr : Option (String → Option (List Byte))
  sha256 : List Byte → String

inductive BuildError where
  | notAFile (name : Text)
  | withoutCrc (name : Text)
  | lengthOverflow
  | crcFailures (failures : List (ℕ × ℕ))
  | nonContiguous (fileNumbers : List ℕ)
  | noFile1
  | noRecoveredUsr
  | noMember (file : Repair)
  | repairHash (file : Repair)
  | file1Layout
  | file1Hash
  | bootHeader
  | bootLayout
  | bootTrailing
  | file1Differs
  | block169Size
  | block169Hash
  | block169Disagrees (file : Repair)
  | block169Header (index : ℕ)
deriving DecidableEq

section Checks

/-- `data[offset:offset + 512]` for the offsets of `range(0, len(data), 512)`. -/
def sliceRecords (data : List Byte) : List (List Byte) :=
  (List.range ((data.length + 511) / 512)).map fun i ↦ (data.drop (512 * i)).take 512

/-- `file_blocks`. -/
def fileBlocks (data : List Byte) : List (List Byte) :=
  (sliceRecords data).map fun b ↦ b.rightpad 512 0

/-- `load_repair_files`; all files are read before the first hash is looked at. -/
def loadRepairFiles (src : Sources) : Except BuildError (Repair → List Byte) := do
  match src.recoveredUsr with
  | none => throw .noRecoveredUsr
  | some archive =>
    Repair.all.forM fun file ↦ if archive file.name = none then throw (.noMember file) else pure ()
    let files := fun file : Repair ↦ (archive file.name).getD []
    Repair.all.forM fun file ↦
      if src.sha256 (files file) ≠ file.hash then throw (.repairHash file) else pure ()
    return files

/-- `verify_file_1`. -/
def verifyFile1 (src : Sources) (records : List (ℕ × List Byte)) : Except BuildError Unit := do
  if records.map Prod.fst ≠ List.range file1Records ∨
      ∃ r ∈ records, r.2.length ≠ tapeRecordSize then
    throw .file1Layout
  let loader := records.flatMap Prod.snd
  if src.sha256 loader ≠ file1Hash then throw .file1Hash
  let files ← loadRepairFiles src
  let boot := files .boot
  if boot.length < 12 then throw .bootHeader
  let imageSize := (be32 boot 2).toNat
  let headerSize := 24 + (be16 boot 10).toNat
  if (be16 boot 0).toNat ≠ 0xe707 ∨ imageSize ≠ 0x58da ∨ headerSize ≠ 40 then throw .bootLayout
  let image := (boot.drop headerSize).take imageSize
  if boot.length ≠ headerSize + imageSize then throw .bootTrailing
  let padded := image.rightpad
    ((image.length + tapeRecordSize - 1) / tapeRecordSize * tapeRecordSize) 0
  if loader ≠ padded then throw .file1Differs

/-- `load_block_169`. -/
def loadBlock169 (src : Sources) : Except BuildError (List Byte) := do
  let block := src.block169
  if block.length ≠ tapeBlockSize then throw .block169Size
  if src.sha256 block ≠ block169Hash then throw .block169Hash
  let records := sliceRecords block
  let files ← loadRepairFiles src
  block169Layout.forM fun (first, key, start, count) ↦
    if (records.drop first).take count ≠ ((fileBlocks (files key)).drop start).take count then
      throw (.block169Disagrees key)
    else pure ()
  block169Inodes.forM fun index ↦
    let record := records.getD index []
    if (be16 record 0).toInt ≠ tsInode ∨ (be16 record 18).toNat ≠ magic ∨
        wordSum record &&& 0xffff ≠ checksum then
      throw (.block169Header index)
    else pure ()
  return block

end Checks

/-- The order of pairs of a number and a byte string. -/
def recordLE (a b : ℕ × List Byte) : Prop :=
  toLex (a.1, a.2.map BitVec.toNat) ≤ toLex (b.1, b.2.map BitVec.toNat)

instance : DecidableRel recordLE := fun _ _ ↦ inferInstanceAs (Decidable (_ ≤ _))

/-- The order of pairs of numbers. -/
def placeLE (a b : ℕ × ℕ) : Prop := toLex a ≤ toLex b

instance : DecidableRel placeLE := fun _ _ ↦ inferInstanceAs (Decidable (_ ≤ _))

/-- What both readers have collected. -/
structure Reading where
  grouped : Dict ℕ (List (ℕ × List Byte))
  crcFailures : List (ℕ × ℕ)

/-- The payload of a member, with the result of its check. -/
def readMember (m : Member) : Except BuildError (List Byte × Bool) :=
  match m.contents with
  | none => .error (.notAFile m.name)
  | some payload =>
    match search crcRe m.name with
    | none => .error (.withoutCrc m.name)
    | some crc =>
      match encodedLength payload with
      | none => .error .lengthOverflow
      | some encoded => .ok (payload, tccCrc (encoded ++ payload ++ crc) ≠ 0)

/-- The part of both loops behind the numbers of a member: the check is recorded, file marks are
left out, and `load` says what stands for a payload. -/
def collect (load : ℕ → ℕ → List Byte → Except BuildError (List Byte)) (st : Reading) (m : Member)
    (fileNo blockNo : ℕ) : Except BuildError Reading :=
  match readMember m with
  | .error e => .error e
  | .ok (payload, fails) =>
    let failures := if fails then st.crcFailures ++ [(fileNo, blockNo)] else st.crcFailures
    if isFilemark m.name then .ok ⟨st.grouped, failures⟩
    else match load fileNo blockNo payload with
      | .error e => .error e
      | .ok payload => .ok ⟨st.grouped.push (fileNo, blockNo, payload), failures⟩

/-- Block 169 of file 8 is replaced. -/
def loadInstall (src : Sources) (fileNo blockNo : ℕ) (payload : List Byte) :
    Except BuildError (List Byte) :=
  if fileNo = 8 ∧ blockNo = 169 then loadBlock169 src else .ok payload

/-- The loop of `read_install_records`. -/
def readInstallMember (src : Sources) (st : Reading) (m : Member) : Except BuildError Reading :=
  match search nameRe m.name with
  | none => .ok st
  | some (fileNo, blockNo) => collect (loadInstall src) st m fileNo blockNo

/-- `{file_no: sorted(records) for file_no, records in grouped.items()}`. -/
def sortRecords (grouped : Dict ℕ (List (ℕ × List Byte))) : Dict ℕ (List (ℕ × List Byte)) :=
  grouped.mapValues fun records ↦ records.insertionSort recordLE

/-- `read_install_records`. -/
def readInstallRecords (src : Sources) (capture : List Member) :
    Except BuildError (Dict ℕ (List (ℕ × List Byte))) := do
  let st ← capture.foldlM (readInstallMember src) ⟨∅, []⟩
  if st.crcFailures.insertionSort placeLE ≠ [(8, 169)] then
    throw (.crcFailures (st.crcFailures.insertionSort placeLE))
  match st.grouped.get? 1 with
  | none => throw .noFile1
  | some records => verifyFile1 src (records.insertionSort recordLE)
  return sortRecords st.grouped

/-- The numbers of a member of a track. -/
def sadieNumbers (track : ℕ) (m : Member) : Option (ℕ × ℕ) :=
  if search trackRe m.name = some track then search nameRe m.name else none

/-- The loop of `read_sadie_records`. -/
def readSadieMember (track : ℕ) (st : Reading) (m : Member) : Except BuildError Reading :=
  match sadieNumbers track m with
  | none => .ok st
  | some (fileNo, blockNo) => collect (fun _ _ payload ↦ .ok payload) st m fileNo blockNo

/-- `read_sadie_records`. -/
def readSadieRecords (capture : List Member) (track : ℕ) :
    Except BuildError (Dict ℕ (List (ℕ × List Byte))) := do
  let st ← capture.foldlM (readSadieMember track) ⟨∅, []⟩
  if st.crcFailures ≠ [] then throw (.crcFailures st.crcFailures)
  let fileNumbers := st.grouped.keys.insertionSort (· ≤ ·)
  if fileNumbers ≠ List.range fileNumbers.length then throw (.nonContiguous fileNumbers)
  return sortRecords st.grouped

/-- `[[payload for _, payload in grouped[file_no]] for file_no in sorted(grouped)]`. -/
def payloads (grouped : Dict ℕ (List (ℕ × List Byte))) : List LogicalFile :=
  (grouped.keys.insertionSort (· ≤ ·)).map fun fileNo ↦ (grouped.getD fileNo []).map Prod.snd

/-- `build_install`, up to the image that it writes. -/
def buildInstall (src : Sources) (capture : List Member) : Except BuildError (List Byte) := do
  let grouped ← readInstallRecords src capture
  return writeTap (payloads grouped)

/-- `build_sadie`, up to the image that it writes. -/
def buildSadie (capture : List Member) : Except BuildError (List Byte) := do
  let tracks ← (List.range 3).mapM (readSadieRecords capture)
  return writeSadieTap (numberTracks (tracks.map payloads))

end S8000.Media.Capture
