import S8000.Serial.Damage
import S8000.Serial.ExactlyOnce

namespace S8000.Serial.Zeus

open Foundation Foundation.Bytes

/-- Offsets into `struct iob`. -/
def iOffset : Word := 0x5E
def iMa : Word := 0x62
def iCc : Word := 0x64

/-- A byte is taken into the check in `rl1` and sent. -/
def putChecked (m : Cpu) (b : Byte) : Cpu :=
  { m with r1 := word (high m.r1) (low m.r1 ^^^ b) }.putByte b

/-- `.Lstrategy_body` up to the receive core: the read request. -/
def strategyBody (m : Cpu) : Cpu :=
  let m := { m with
    r4 := m.mem.readWord (m.r7 + iCc)
    r5 := m.mem.readWord (m.r7 + iMa) }
  let m := m.putByte charR
  let m := { m with r1 := word (high m.r1) charR }
  let m := putChecked m (m.mem (m.r7 + iOffset))
  let m := putChecked m (m.mem (m.r7 + (iOffset + 1)))
  let m := putChecked m (m.mem (m.r7 + (iOffset + 2)))
  let m := putChecked m (m.mem (m.r7 + (iOffset + 3)))
  let m := putChecked m (high m.r4)
  let m := putChecked m (low m.r4)
  let m := m.putByte (low m.r1)
  { m with r2 := word 1 (low m.r2), r3 := word 0 (low m.r3) }

/-- `.Lerror`: the call returns -1. -/
def error (m : Cpu) : Option Word × Cpu := (some 0xFFFF, { m with r2 := 0xFFFF })

/-- `_ctstrategy` until it waits for the first response. -/
def ctStrategy (m : Cpu) : Option Word × Cpu :=
  if m.r6 = 1 then (none, strategyBody m) else error m

/-- `.Lbad`. -/
def bad (m : Cpu) : Option Word × Cpu :=
  let m := { m with r3 := word (high m.r3 + 1) (low m.r3) }
  if 10 < (high m.r3).toNat then error m else (none, m.drain.putByte nak)

/-- From `.Lresponse` until the next one or the return. -/
def round (m : Cpu) : Option Word × Cpu :=
  match m.response with
  | (.valid, m) =>
    let m := m.putByte ack
    (none, { m with
      r2 := word (high m.r2 + 1) (low m.r2)
      r3 := word 0 (low m.r3)
      r4 := m.r4 - 128 })
  | (.duplicate, m) => (none, m)
  | (.bad, m) => bad m
  | (.eot, m) =>
    let m := m.putByte ack
    let r2 := m.mem.readWord (m.r7 + iCc) - m.r4
    (some r2, { m with r2 := r2 })
  | (.error, m) => error m

/-- The server and the driver between two transmissions: what the server has sent is on its way,
and nothing else. -/
structure Link where
  session : Session
  cpu : Cpu
  sent : List Byte := []
  returned : Option Word := none

/-- A strategy call to a server; the request arrives. -/
def call (t : Tape) (σ : Session) (m : Cpu) : Link :=
  let out := ctStrategy { m with rx := [], tx := [] }
  let reply := σ.feed t out.2.tx
  { session := reply.1, cpu := out.2, sent := reply.2, returned := out.1 }

namespace Link

variable (t : Tape)

/-- The driver takes one round and the server its answer. -/
def turn (l : Link) (f : Fate) : Link :=
  let out := round { l.cpu with rx := l.cpu.rx ++ f.events, tx := [] }
  let reply := l.session.feed t (if f.lost then [] else out.2.tx)
  { session := reply.1, cpu := out.2, sent := reply.2, returned := out.1 }

/-- A data packet is on its way. -/
def Data (l : Link) : Prop := l.sent.head? = some soh

/-- Data packets arrive intact or damaged, and the acknowledgement of one may be lost; everything
else arrives. -/
structure Fair (l : Link) (f : Fate) : Prop where
  events : f.events = l.sent.map some ∨ l.Data ∧ Damaged l.sent f.events
  lost : f.lost = true → l.Data ∧ (l.turn t { f with lost := false }).cpu.tx = [ack]

/-- A damaged transmission of the block that the driver waits for is found damaged in its header. -/
def Spared (l : Link) (f : Fate) : Prop :=
  f.events = l.sent.map some ∨ l.sent[1]? ≠ some (high l.cpu.r2) ∨ Early f.events

/-- The states of a call whose turns all satisfy a condition. -/
inductive Run (ok : Link → Fate → Prop) (l₀ : Link) : Link → Prop
  | start : Run ok l₀ l₀
  | turn {l : Link} {f : Fate} : Run ok l₀ l → l.returned = none → ok l f → Run ok l₀ (l.turn t f)

end Link

end S8000.Serial.Zeus
