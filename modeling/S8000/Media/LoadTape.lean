import S8000.Media.VerifyTapeCrc
import S8000.Dump.Record

namespace S8000.Media.LoadTape

open Foundation Foundation.Bytes Dump

def recsPerBlock : ℕ := 8

/-- `read_dump` builds its own copy of the table and applies the final exclusive or inside. -/
def crc16 (data : List Byte) : ℕ :=
  data.foldl VerifyTapeCrc.crcStep 0 ^^^ VerifyTapeCrc.xorout

/-- Unlike the verifier's, this search has no test for a block that is already right, and
returns the corrected byte. -/
def repairSingleBit (payload : List Byte) (stored : ℕ) : Option (ℕ × Byte) :=
  (List.range payload.length).findSome? fun pos ↦
    (List.range 8).findSome? fun bit ↦
      if crc16 (VerifyTapeCrc.flipBits payload pos (VerifyTapeCrc.bitMask bit)) = stored then
        some (pos, payload.getD pos 0 ^^^ VerifyTapeCrc.bitMask bit)
      else none

/-- The payload kept for one file of the directory. -/
def keptPayload (raw : List Byte) : List Byte :=
  if raw.length = VerifyTapeCrc.reclen then
    let payload := raw.take VerifyTapeCrc.datalen
    let stored := (word (raw.getD VerifyTapeCrc.datalen 0)
      (raw.getD (VerifyTapeCrc.datalen + 1) 0)).toNat
    if crc16 payload ≠ stored then
      match repairSingleBit payload stored with
      | some (pos, good) => payload.take pos ++ [good] ++ payload.drop (pos + 1)
      | none => payload
    else payload
  else raw

structure Loaded where
  tape : Dict ℕ Record := ∅
  consumed : ℕ := 0
  nblocks : ℕ := 0

def loadBlock (st : Loaded) (file : ℕ × List Byte) : Loaded :=
  let payload := keptPayload file.2
  { tape := numbered st.tape (file.1 * recsPerBlock) (Record.split payload)
    consumed := st.consumed + payload.length
    nblocks := max st.nblocks (file.1 + 1) }

/-- The records of a directory of numbered files, and of the complete blocks of `outfile`
that lie behind them. -/
def loadTape (files : List (ℕ × List Byte)) (outfile : Option (List Byte)) : Dict ℕ Record :=
  let st := files.foldl loadBlock {}
  match outfile with
  | none => st.tape
  | some out =>
    let extra := out.drop st.consumed
    let whole := extra.take (extra.length / VerifyTapeCrc.datalen * VerifyTapeCrc.datalen)
    numbered st.tape (st.nblocks * recsPerBlock) (Record.split whole)

end S8000.Media.LoadTape
