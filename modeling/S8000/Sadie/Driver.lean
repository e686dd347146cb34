import S8000.Serial.Receiver
import S8000.Sadie.Server

namespace S8000.Sadie

open Foundation Foundation.Bytes Serial

abbrev Segment := BitVec 7

/-- The registers and logical memory, and physical memory by segment and offset. `SC #1` and
`SC #2` switch the mapping around a store and keep the registers. -/
structure Machine where
  cpu : Cpu
  phys : Segment → Memory

/-- The stack frame of `_sadie_read`; the packet buffer is at its beginning. -/
def destSeg : Word := 0x80
def destOff : Word := 0x82
def remaining : Word := 0x84
def countPtr : Word := 0x86
def recordsLeft : Word := 0x88
def total : Word := 0x8A
def recordLeft : Word := 0x8C
def savedRegs : Word := 0x94
def readFrame : Word := 0x9E

/-- A word of the stack frame. -/
def field (m : Cpu) (k : Word) : Word := m.mem.readWord (m.r15 + k)

def setField (m : Cpu) (k v : Word) : Cpu := { m with mem := m.mem.writeWord (m.r15 + k) v }

/-- A byte is taken into the check in `rl1` and sent. -/
def putChecked (m : Cpu) (b : Byte) : Cpu :=
  { m with r1 := word (high m.r1) (low m.r1 ^^^ b) }.putByte b

/-- Where the driver waits for the server: behind a request, or at `.Lresponse`. -/
inductive Stage where
  | header
  | packet

/-- The driver waits, or it has returned with `r2`. -/
inductive Outcome where
  | wait (stage : Stage)
  | returned (r2 : Word)

/-- `.Lread_return`. -/
def readReturn (m : Cpu) (r2 : Word) : Outcome × Cpu :=
  (.returned r2,
    { m with
      r2 := r2
      r3 := field m savedRegs
      r4 := field m (savedRegs + 2)
      r5 := field m (savedRegs + 4)
      r6 := field m (savedRegs + 6)
      r7 := field m (savedRegs + 8)
      r15 := m.r15 + readFrame })

def readError (m : Cpu) : Outcome × Cpu := readReturn m 0xFFFF

def readOk (m : Cpu) : Outcome × Cpu :=
  let m := { m with r4 := field m countPtr }
  let m := { m with r2 := field m total }
  let m := { m with mem := m.mem.writeWord m.r4 m.r2 }
  readReturn m 0

/-- `.Lread_next`: the request for the next record. -/
def readNext (m : Cpu) : Outcome × Cpu :=
  if field m remaining = 0 then readOk m
  else if field m recordsLeft = 0 then readOk m
  else
    let m := m.putByte charR
    let m := { m with r1 := word (high m.r1) charR }
    let m := putChecked m (m.mem (m.r15 + remaining))
    let m := putChecked m (m.mem (m.r15 + (remaining + 1)))
    let m := m.putByte (low m.r1)
    (.wait .header, m)

/-- The beginning of `_sadie_read`: the stack frame. -/
def enterFrame (m : Cpu) : Cpu :=
  let m := { m with r15 := m.r15 - readFrame }
  let m := setField m savedRegs m.r3
  let m := setField m (savedRegs + 2) m.r4
  let m := setField m (savedRegs + 4) m.r5
  let m := setField m (savedRegs + 6) m.r6
  let m := setField m (savedRegs + 8) m.r7
  let m := setField m destSeg m.r7
  let m := setField m destOff m.r6
  let m := setField m remaining m.r5
  let m := setField m countPtr m.r4
  let m := setField m recordsLeft m.r3
  let m := setField m total 0
  { m with mem := m.mem.writeWord m.r4 0 }

/-- `_sadie_read` until it waits for the first time. -/
def sadieRead (m : Cpu) : Outcome × Cpu := readNext (enterFrame m)

/-- `.Lpacket_loop`. -/
def packetLoop (m : Cpu) : Outcome × Cpu := (.wait .packet, { m with r4 := 128, r5 := m.r15 })

/-- The answer to a request. -/
def headerRound (m : Cpu) : Outcome × Cpu :=
  let m := m.getByte
  if m.r0 = 0 then readError m
  else if low m.r3 = Serial.eot then readOk (m.putByte Serial.ack)
  else if low m.r3 ≠ stx then readError m
  else
    let m := m.getByte
    if m.r0 = 0 then readError m
    else
      let m := { m with mem := m.mem.store (m.r15 + recordLeft) (low m.r3) }
      let m := { m with r1 := word (high m.r1) (low m.r3) }
      let m := m.getByte
      if m.r0 = 0 then readError m
      else
        let m := { m with mem := m.mem.store (m.r15 + (recordLeft + 1)) (low m.r3) }
        let m := { m with r2 := field m recordLeft }
        if (field m remaining).toNat < m.r2.toNat then readError m
        else
          let m := { m with r2 := word 1 (low m.r2), r3 := word 0 (low m.r3) }
          packetLoop (m.putByte crcRequest)

/-- The segment that `rr6` addresses. -/
def segment (r6 : Word) : Segment := (high r6).setWidth 7

/-- `.Lphysical_byte` with `n` passes left. -/
def physicalByte : ℕ → Machine → Machine
  | 0, M => M
  | n + 1, M =>
    let m := M.cpu
    let m := { m with r0 := word (high m.r0) (m.mem m.r5), r5 := m.r5 + 1 }
    let phys := Function.update M.phys (segment m.r6) ((M.phys (segment m.r6)).store m.r7 (low m.r0))
    physicalByte n { cpu := { m with r7 := m.r7 + 1, r3 := m.r3 - 1 }, phys := phys }

/-- The passes of a loop that ends with `djnz`. -/
def djnzPasses (r : Word) : ℕ := if r = 0 then 65536 else r.toNat

/-- The counters after a block of `r4` bytes. -/
def packetCount (m : Cpu) : Cpu :=
  let m := { m with r3 := field m destOff }
  let carry := 65536 ≤ m.r3.toNat + m.r4.toNat
  let m := { m with r3 := m.r3 + m.r4 }
  let m := setField m destOff m.r3
  let m :=
    if carry then
      let m := { m with r3 := field m destSeg }
      let m := { m with r3 := m.r3 + 1 }
      setField m destSeg m.r3
    else m
  let m := { m with r3 := field m recordLeft }
  let m := { m with r3 := m.r3 - m.r4 }
  let m := setField m recordLeft m.r3
  let m := { m with r3 := field m remaining }
  let m := { m with r3 := m.r3 - m.r4 }
  let m := setField m remaining m.r3
  let m := { m with r3 := field m total }
  let m := { m with r3 := m.r3 + m.r4 }
  setField m total m.r3

/-- `.Lpacket_valid` up to the loop: the size of the copy, its source and its destination. -/
def packetSetup (m : Cpu) : Cpu :=
  let m := { m with r4 := field m recordLeft }
  let m := { m with r4 := if m.r4.toNat ≤ 128 then m.r4 else 128 }
  let m := m.putByte traceBeforeStore
  let m := { m with r5 := m.r15, r6 := field m destSeg }
  let m := { m with r6 := word (low m.r6) (high m.r6) }
  { m with r7 := field m destOff, r3 := m.r4 }

/-- The copy to physical memory. -/
def packetCopy (M : Machine) : Machine :=
  let m := packetSetup M.cpu
  physicalByte (djnzPasses m.r3) { M with cpu := m }

/-- The end of `.Lpacket_valid`. -/
def packetAck (m : Cpu) : Outcome × Cpu :=
  let m := m.putByte Serial.ack
  packetLoop { m with r2 := word (high m.r2 + 1) (low m.r2), r3 := word 0 (low m.r3) }

/-- Lifts the parts that do not touch physical memory. -/
def onCpu (M : Machine) (out : Outcome × Cpu) : Outcome × Machine := (out.1, { M with cpu := out.2 })

/-- `.Lpacket_valid`. -/
def packetValid (M : Machine) : Outcome × Machine :=
  let M := packetCopy M
  onCpu M (packetAck (packetCount (M.cpu.putByte traceAfterStore)))

/-- `.Lpacket_bad`. -/
def packetBad (m : Cpu) : Outcome × Cpu :=
  let m := { m with r3 := word (high m.r3 + 1) (low m.r3) }
  if 10 < (high m.r3).toNat then readError m else packetLoop (m.drain.putByte nak)

/-- `.Lrecord_eot`. -/
def recordEot (m : Cpu) : Outcome × Cpu :=
  if field m recordLeft ≠ 0 then readError m
  else
    let m := m.putByte Serial.ack
    readNext (setField m recordsLeft (field m recordsLeft - 1))

/-- From one wait to the next. -/
def round (M : Machine) : Stage → Outcome × Machine
  | .header => onCpu M (headerRound M.cpu)
  | .packet =>
    match M.cpu.response with
    | (.valid, m) => packetValid { M with cpu := m }
    | (.duplicate, m) => (.wait .packet, { M with cpu := m })
    | (.bad, m) => onCpu M (packetBad m)
    | (.eot, m) => onCpu M (recordEot m)
    | (.error, m) => onCpu M (readError m)

end S8000.Sadie
