import S8000.Serial.MonitorRecord
import Mathlib.Data.List.Infix

namespace S8000.Serial.Download

open Foundation Foundation.Bytes

section Monitor

/-- The status that answers a record. -/
inductive Status where
  | accept
  | retransmit
  deriving DecidableEq

def Status.code : Status → Byte
  | accept => 0x30
  | retransmit => 0x37

/-- The receiving end: the record that is being read, the statuses it will send, each with the carriage returns
before it, what the server has not read yet, and the records it has answered. -/
structure Monitor where
  frame : Option (List Byte)
  replies : List (ℕ × Status)
  outgoing : List Byte
  log : List (Load × Status)

namespace Monitor

/-- A record is complete. -/
def answer (m : Monitor) (frame : List Byte) : Monitor :=
  match decodeRecord frame, m.replies with
  | some load, (crs, status) :: replies =>
    ⟨none, replies, m.outgoing ++ (List.replicate crs cr ++ [status.code, cr]), m.log ++ [(load, status)]⟩
  | some _, [] => { m with frame := none }
  | none, _ => { m with frame := none, outgoing := m.outgoing ++ [Status.retransmit.code, cr] }

/-- Input is discarded up to a slash and then kept up to a carriage return. -/
def take (m : Monitor) (b : Byte) : Monitor :=
  match m.frame with
  | none => if b = slash then { m with frame := some [] } else m
  | some frame => if b = cr then m.answer frame else { m with frame := some (frame ++ [b]) }

def write (m : Monitor) (bs : List Byte) : Monitor := bs.foldl take m

/-- The monitor has sent its command line, and `crs` carriage returns more. -/
def start (command : List Byte) (crs : ℕ) (replies : List (ℕ × Status)) : Monitor :=
  ⟨none, replies, command ++ cr :: List.replicate crs cr, []⟩

end Monitor

end Monitor

section Server

/-- How `send_monitor_image` ends when it does not return. -/
inductive Failure where
  | eof
  | noCommand
  | tooLong
  | aborted
  | outOfFuel
  deriving DecidableEq

/-- The monitor at the other end of the port, and the replies taken so far with the numbers of their records. -/
structure Link where
  monitor : Monitor
  taken : List (ℕ × Byte)

/-- `read_until(port, b"\r")`, with what stays unread. -/
def readUntil : List Byte → Option (List Byte × List Byte)
  | [] => none
  | b :: bs => if b = cr then some ([b], bs) else (readUntil bs).map fun r ↦ (b :: r.1, r.2)

/-- `read_exact(port, 1)` until the byte is not a carriage return. -/
def readReply : List Byte → Option (Byte × List Byte)
  | [] => none
  | b :: bs => if b = cr then readReply bs else some (b, bs)

def Link.closed (l : Link) (m : Monitor) : Link × Option Failure :=
  ({ l with monitor := { m with outgoing := [] } }, some .eof)

/-- The attempts at one record. -/
def sendRecord (record : List Byte) (number : ℕ) : ℕ → Link → Link × Option Failure
  | 0, l => (l, some .outOfFuel)
  | fuel + 1, l =>
    let m := l.monitor.write record
    match readReply m.outgoing with
    | none => l.closed m
    | some (reply, bs) =>
      match readUntil bs with
      | none => l.closed m
      | some (_, bs) =>
        let m := { m with outgoing := bs }
        let taken := l.taken ++ [(number, reply)]
        if reply = Status.accept.code then (⟨m.write [cr], taken⟩, none)
        else if reply ≠ Status.retransmit.code then (⟨m, taken⟩, some .aborted)
        else sendRecord record number fuel ⟨m.write [cr], taken⟩

def sendRecords (fuel : ℕ) : ℕ → List (List Byte) → Link → Link × Option Failure
  | _, [], l => (l, none)
  | number, record :: records, l =>
    match sendRecord record number fuel l with
    | (l, none) => sendRecords fuel (number + 1) records l
    | (l, some failure) => (l, some failure)

/-- What both servers do with the records that they make. -/
def sendImage (fuel : ℕ) (m : Monitor) (records : Option (List (List Byte))) : Link × Option Failure :=
  match readUntil m.outgoing with
  | none => (⟨{ m with outgoing := [] }, []⟩, some .eof)
  | some (command, bs) =>
    let m := { m with outgoing := bs }
    -- `command[:1].upper()`
    if ¬ (command.head? = some 0x4C ∨ command.head? = some 0x6C) then (⟨m, []⟩, some .noCommand)
    else
      let m := m.write [cr, 0x30]
      match records with
      | none => (⟨m, []⟩, some .tooLong)
      | some records => sendRecords fuel 0 records ⟨m, []⟩

/-- The image in pieces of at most 30 bytes, and the entry address. -/
def loads (image : List Byte) (address : ℕ) : List Load :=
  ((List.range ((image.length + 29) / 30)).map fun k ↦ (address + 30 * k, (image.drop (30 * k)).take 30)) ++
    [(address, [])]

namespace ServeTape

def monitorRecord (address : ℕ) (payload : List Byte) : Option (List Byte) :=
  if payload.length > 30 then none else some (slash :: (body address payload ++ [cr]))

def sendMonitorImage (fuel : ℕ) (m : Monitor) (image : List Byte) (address : ℕ) : Link × Option Failure :=
  sendImage fuel m ((loads image address).mapM fun load ↦ monitorRecord load.1 load.2)

end ServeTape

namespace ServeSadie

def monitorRecord (address : ℕ) (payload : List Byte) : List Byte :=
  let encoded := hex payload
  slash :: header address payload ++ fmtX 2 (digitSum (header address payload)) ++
    (if encoded = [] then [] else encoded ++ fmtX 2 (digitSum encoded)) ++ [cr]

def sendMonitorImage (fuel : ℕ) (m : Monitor) (image : List Byte) : Link × Option Failure :=
  sendImage fuel m (some ((loads image 0xF000).map fun load ↦ monitorRecord load.1 load.2))

end ServeSadie

end Server

section Handshake

variable {replies : List (ℕ × Status)} {log : List (Load × Status)} {taken : List (ℕ × Byte)} {bs : List Byte}

theorem write_frame (frame : List Byte) (h : cr ∉ bs) (out : List Byte) :
    Monitor.write ⟨some frame, replies, out, log⟩ bs = ⟨some (frame ++ bs), replies, out, log⟩ := by
  induction bs generalizing frame with
  | nil => rw [List.append_nil]; rfl
  | cons b bs ih =>
    obtain ⟨hb, hbs⟩ := not_or.mp (List.mem_cons.not.mp h)
    have htake : Monitor.take ⟨some frame, replies, out, log⟩ b = ⟨some (frame ++ [b]), replies, out, log⟩ := by
      rw [Monitor.take]
      exact if_neg (Ne.symm hb)
    rw [Monitor.write, List.foldl_cons, htake, ← Monitor.write, ih _ hbs, List.append_assoc]
    rfl

/-- What a record is on the wire. -/
def wire (load : Load) : List Byte := slash :: (body load.1 load.2 ++ [cr])

theorem write_wire {load : Load} (out : List Byte) :
    Monitor.write ⟨none, replies, out, log⟩ (wire load) =
      Monitor.answer ⟨some (body load.1 load.2), replies, out, log⟩ (body load.1 load.2) := by
  have hcr : cr ∉ body load.1 load.2 := by
    rw [body_eq]
    exact cr_notMem (areDigits_record _ _)
  have hslash : Monitor.take ⟨none, replies, out, log⟩ slash = ⟨some [], replies, out, log⟩ := rfl
  have hframe : List.foldl Monitor.take ⟨some [], replies, out, log⟩ (body load.1 load.2) =
      ⟨some (body load.1 load.2), replies, out, log⟩ := write_frame [] hcr out
  rw [wire, Monitor.write, List.foldl_cons, List.foldl_append, hslash, hframe]
  rfl

theorem readReply_crs (k : ℕ) {b : Byte} (hb : b ≠ cr) (bs : List Byte) :
    readReply (List.replicate k cr ++ b :: bs) = some (b, bs) := by
  induction k with
  | zero => exact if_neg hb
  | succ k ih => rw [List.replicate_succ, List.cons_append, readReply, if_pos rfl, ih]

theorem readReply_only_crs (k : ℕ) : readReply (List.replicate k cr) = none := by
  induction k with
  | zero => rfl
  | succ k ih => rw [List.replicate_succ, readReply, if_pos rfl, ih]

theorem readUntil_line {line : List Byte} (h : cr ∉ line) (bs : List Byte) :
    readUntil (line ++ cr :: bs) = some (line ++ [cr], bs) := by
  induction line with
  | nil => exact if_pos rfl
  | cons b line ih =>
    obtain ⟨hb, hline⟩ := not_or.mp (List.mem_cons.not.mp h)
    rw [List.cons_append, readUntil, if_neg (Ne.symm hb), ih hline]
    rfl

theorem Status.code_ne_cr (s : Status) : s.code ≠ cr := by
  cases s with
  | accept => decide
  | retransmit => decide

theorem readReply_answer (k c : ℕ) (status : Status) :
    readReply (List.replicate k cr ++ (List.replicate c cr ++ [status.code, cr])) = some (status.code, [cr]) := by
  rw [← List.append_assoc, List.replicate_append_replicate]
  exact readReply_crs _ status.code_ne_cr _

/-- A load that a record can carry. -/
def Load.Fits (load : Load) : Prop := load.1 < 0x10000 ∧ load.2.length ≤ 30

section Attempt

variable {load : Load} (h : load.Fits) (number fuel k : ℕ)

include h

theorem answer_body (c : ℕ) (status : Status) (out : List Byte) :
    Monitor.answer ⟨some (body load.1 load.2), (c, status) :: replies, out, log⟩ (body load.1 load.2) =
      ⟨none, replies, out ++ (List.replicate c cr ++ [status.code, cr]), log ++ [(load, status)]⟩ := by
  rw [Monitor.answer, decodeRecord_body h.1 (by have := h.2; omega)]

/-- Nothing comes back any more. -/
theorem sendRecord_silent :
    sendRecord (wire load) number (fuel + 1) ⟨⟨none, [], List.replicate k cr, log⟩, taken⟩ =
      (⟨⟨none, [], [], log⟩, taken⟩, some .eof) := by
  have hanswer : Monitor.answer ⟨some (body load.1 load.2), [], List.replicate k cr, log⟩ (body load.1 load.2) =
      ⟨none, [], List.replicate k cr, log⟩ := by
    rw [Monitor.answer, decodeRecord_body h.1 (by have := h.2; omega)]
  rw [sendRecord]
  dsimp only
  rw [write_wire, hanswer, readReply_only_crs]
  rfl

theorem sendRecord_retransmit (c : ℕ) :
    sendRecord (wire load) number (fuel + 1) ⟨⟨none, (c, .retransmit) :: replies, List.replicate k cr, log⟩, taken⟩ =
      sendRecord (wire load) number fuel
        ⟨⟨none, replies, List.replicate 0 cr, log ++ [(load, .retransmit)]⟩, taken ++ [(number, Status.retransmit.code)]⟩ := by
  rw [sendRecord]
  dsimp only
  rw [write_wire, answer_body h]
  dsimp only
  rw [readReply_answer]
  rfl

theorem sendRecord_accept (c : ℕ) :
    sendRecord (wire load) number (fuel + 1) ⟨⟨none, (c, .accept) :: replies, List.replicate k cr, log⟩, taken⟩ =
      (⟨⟨none, replies, List.replicate 0 cr, log ++ [(load, .accept)]⟩, taken ++ [(number, Status.accept.code)]⟩, none) := by
  rw [sendRecord]
  dsimp only
  rw [write_wire, answer_body h]
  dsimp only
  rw [readReply_answer]
  rfl

end Attempt

end Handshake

end S8000.Serial.Download
