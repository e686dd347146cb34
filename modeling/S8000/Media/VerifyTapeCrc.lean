import S8000.Foundation.Bytes
import Mathlib.Logic.Function.Iterate

namespace S8000.Media.VerifyTapeCrc

open Foundation.Bytes

def poly : ℕ := 0x8005
def xorout : ℕ := 0xC00C
def reclen : ℕ := 4098
def datalen : ℕ := 4096

/-- The body of the loop that fills the table. -/
def tabStep (c : ℕ) : ℕ :=
  if c &&& 0x8000 ≠ 0 then ((c <<< 1) ^^^ poly) &&& 0xFFFF else (c <<< 1) &&& 0xFFFF

def tab : List ℕ := (List.range 256).map fun i ↦ tabStep^[8] (i <<< 8)

def crcStep (c : ℕ) (b : Byte) : ℕ :=
  ((c <<< 8) ^^^ tab.getD ((c >>> 8) ^^^ b.toNat) 0) &&& 0xFFFF

def crc16 (data : List Byte) (init : ℕ) : ℕ := data.foldl crcStep init

/-- The CRC as it is stored on tape. -/
def blockCrc (payload : List Byte) : ℕ := crc16 payload 0 ^^^ xorout

def bitMask (bit : ℕ) : Byte := 1#8 <<< bit

/-- The byte at `pos` with the bits of `mask` inverted. -/
def flipBits (buf : List Byte) (pos : ℕ) (mask : Byte) : List Byte :=
  buf.set pos (buf.getD pos 0 ^^^ mask)

/-- The first offset and bit mask, in increasing order of both, whose flip satisfies the CRC. -/
def repairSingleBit (payload : List Byte) (stored : ℕ) : Option (ℕ × Byte) :=
  if blockCrc payload = stored then none
  else (List.range payload.length).findSome? fun pos ↦
    (List.range 8).findSome? fun bit ↦
      if blockCrc (flipBits payload pos (bitMask bit)) = stored then some (pos, bitMask bit) else none

structure Report where
  stream : List Byte := []
  ok : ℕ := 0
  bad : ℕ := 0
  fixed : ℕ := 0
  nocrc : ℕ := 0

/-- The body of the loop over the records of the directory. -/
def verifyRecord (fix : Bool) (report : Report) (raw : List Byte) : Report :=
  if raw.length ≠ reclen then
    { report with nocrc := report.nocrc + 1, stream := report.stream ++ raw }
  else
    let payload := raw.take datalen
    let stored := (word (raw.getD datalen 0) (raw.getD (datalen + 1) 0)).toNat
    if blockCrc payload = stored then
      { report with ok := report.ok + 1, stream := report.stream ++ payload }
    else match repairSingleBit payload stored with
      | none => { report with bad := report.bad + 1, stream := report.stream ++ payload }
      | some (pos, mask) =>
        let good := payload.getD pos 0 ^^^ mask
        if fix then
          { report with
            bad := report.bad + 1
            fixed := report.fixed + 1
            stream := report.stream ++ (payload.take pos ++ [good] ++ payload.drop (pos + 1)) }
        else { report with bad := report.bad + 1, stream := report.stream ++ payload }

/-- `main` on the decoded records of a directory, with the tail of the reference image. -/
def main (fix : Bool) (records : List (List Byte)) (reference : Option (List Byte)) :
    List Byte × ℕ :=
  let report := records.foldl (verifyRecord fix) {}
  let tail := (reference.map fun ref ↦ ref.drop report.stream.length).getD []
  (report.stream ++ tail, if report.bad - report.fixed ≠ 0 then 1 else 0)

end S8000.Media.VerifyTapeCrc
