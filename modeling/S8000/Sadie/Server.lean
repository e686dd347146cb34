import S8000.Serial.Packet
import S8000.Foundation.Dict

namespace S8000.Sadie

open Foundation Foundation.Bytes Serial

def crcRequest : Byte := 0x43
def traceBeforeStore : Byte := 0x10
def traceAfterStore : Byte := 0x11
def charD : Byte := 0x44

/-- The tracks, each a list of logical files made of records, and the two files that the server
replaces in the legacy protocol. -/
structure Tape where
  tracks : Dict ℕ (List (List (List Byte)))
  primary : List Byte := []
  executive : List Byte := []

/-- A track, a logical file and a record. -/
structure Place where
  track : ℕ
  file : ℕ
  record : ℕ

structure SadieServer where
  stream : Option (List Byte) := none
  streamPosition : ℕ := 0
  track : Option ℕ := none
  file : Option ℕ := none
  record : Option ℕ := none

/-- Where the server stands. -/
def SadieServer.place (s : SadieServer) : Option Place :=
  match s.track, s.file, s.record with
  | some track, some file, some record => some ⟨track, file, record⟩
  | _, _, _ => none

theorem SadieServer.place_eq_some {s : SadieServer} {p : Place} :
    s.place = some p ↔ s.track = some p.track ∧ s.file = some p.file ∧ s.record = some p.record := by
  obtain ⟨track, file, record⟩ := p
  rw [place]
  cases s.track with
  | none => simp
  | some =>
    cases s.file with
    | none => simp
    | some => cases s.record <;> simp

/-- What `serve` reads behind a command byte. -/
inductive RequestKind where
  | magic
  | legacyOpen
  | position
  | read

def RequestKind.size : RequestKind → ℕ
  | magic => 2
  | legacyOpen => 3
  | position => 6
  | read => 3

/-- The place in `serve` where the server waits for a byte; `stopped` after a `ValueError` that
it raises itself, `crashed` after any other exception. -/
inductive Waiting where
  | command
  | request (kind : RequestKind) (got : List Byte)
  | legacyReply (payload : List Byte)
  | eof
  | header (payload : List Byte)
  | block (payload : List Byte) (index : ℕ)
  | eot
  | stopped
  | crashed

structure Session where
  server : SadieServer := {}
  waiting : Waiting := .command

/-- `payload.ljust(count, b"\0")`. -/
def ljust (payload : List Byte) (count : ℕ) : List Byte :=
  payload ++ List.replicate (count - payload.length) 0

/-- `xmodem_packet`. -/
def packet (number : Byte) (payload : List Byte) : List Byte :=
  xmodemPacket number (ljust payload xmodemBlockSize)

/-- The packet of block `index` of a record. -/
def recordPacket (payload : List Byte) (index : ℕ) : List Byte :=
  packet (BitVec.ofNat 8 (index + 1)) (blockOf payload index)

/-- `STX` and a length. -/
def lengthHeader (payload : List Byte) : List Byte :=
  let count : Word := BitVec.ofNat 16 payload.length
  [stx, high count, low count]

namespace Tape

def logicalFile (t : Tape) (track file : ℕ) : Option (List Byte) :=
  if (track, file) = (0, 0) then some (ljust t.primary 512)
  else if (track, file) = (0, 1) then some t.executive
  else ((t.tracks.get? track).bind (·[file]?)).map List.flatten

def records? (t : Tape) (track file : ℕ) : Option (List (List Byte)) :=
  (t.tracks.get? track).bind (·[file]?)

def addressable (t : Tape) (track file record : ℕ) : Prop :=
  ∃ records, t.records? track file = some records ∧ record ≤ records.length

instance (t : Tape) (track file record : ℕ) : Decidable (t.addressable track file record) :=
  match h : t.records? track file with
  | none => isFalse (by simp [addressable, h])
  | some records => decidable_of_iff (record ≤ records.length) (by simp [addressable, h])

end Tape

namespace SadieServer

variable (t : Tape)

def answer (s : SadieServer) (b : Byte) : Session × List Byte := (⟨s, .command⟩, [b])

def legacyOpen (s : SadieServer) (request : List Byte) : Session × List Byte :=
  let version := request.getD 0 0
  let fileNumber := request.getD 1 0
  if version ≠ 1 then s.answer can
  else
    match t.tracks.get? 0 with
    | none => (⟨s, .crashed⟩, [])
    | some files =>
      if files.length ≤ fileNumber.toNat ∨
          request.getD 2 0 ≠ xorAll [soh, charS, char8, version, fileNumber] then s.answer can
      else
        match t.logicalFile 0 fileNumber.toNat with
        | none => (⟨s, .crashed⟩, [])
        | some stream => answer { s with stream := some stream, streamPosition := 0 } Serial.ack

def position (s : SadieServer) (request : List Byte) : Session × List Byte :=
  let track := (request.getD 1 0).toNat
  let file := (request.getD 2 0).toNat
  let record := (word (request.getD 3 0) (request.getD 4 0)).toNat
  if request.getD 0 0 ≠ 1 ∨ request.getD 5 0 ≠ xorAll ([soh, charS, charD] ++ request.take 5) ∨
      ¬ t.addressable track file record then s.answer can
  else answer
    { s with track := some track, file := some file, record := some record, stream := none }
    Serial.ack

def legacyRead (s : SadieServer) (stream : List Byte) (request : List Byte) :
    Session × List Byte :=
  let count := (word (request.getD 0 0) (request.getD 1 0)).toNat
  if request.getD 2 0 ≠ xorAll [charR, request.getD 0 0, request.getD 1 0] then s.answer can
  else
    let payload := (stream.drop s.streamPosition).take count
    if payload = [] then s.answer Serial.eot
    else (⟨s, .legacyReply payload⟩, Serial.packet payload)

/-- Sends block `index` of a record, or `EOT` behind the last one. -/
def send (s : SadieServer) (payload : List Byte) (index : ℕ) : Session × List Byte :=
  if index * xmodemBlockSize < payload.length then
    (⟨s, .block payload index⟩, recordPacket payload index)
  else (⟨s, .eot⟩, [Serial.eot])

def recordRead (s : SadieServer) (request : List Byte) : Session × List Byte :=
  let maximum := (word (request.getD 0 0) (request.getD 1 0)).toNat
  match s.track with
  | none => s.answer can
  | some track =>
    if maximum = 0 ∨ request.getD 2 0 ≠ xorAll [charR, request.getD 0 0, request.getD 1 0] then
      s.answer can
    else
      match s.file.bind (t.records? track), s.record with
      | some records, some record =>
        if record = records.length then (⟨s, .eof⟩, [Serial.eot])
        else
          match records[record]? with
          | none => (⟨s, .crashed⟩, [])
          | some data =>
            let payload := data.take maximum
            (⟨{ s with record := some (record + 1) }, .header payload⟩, lengthHeader payload)
      | _, _ => (⟨s, .crashed⟩, [])

/-- A complete request. -/
def handle (s : SadieServer) : RequestKind → List Byte → Session × List Byte
  | .magic, magic =>
    if magic = [charS, char8] then (⟨s, .request .legacyOpen []⟩, [])
    else if magic = [charS, charD] then (⟨s, .request .position []⟩, [])
    else s.answer can
  | .legacyOpen, request => s.legacyOpen t request
  | .position, request => s.position t request
  | .read, request =>
    match s.stream with
    | some stream => s.legacyRead stream request
    | none => s.recordRead t request

/-- The byte that begins a request. -/
def command (s : SadieServer) (b : Byte) : Session × List Byte :=
  if b = soh then (⟨s, .request .magic []⟩, [])
  else if b = charR then (⟨s, .request .read []⟩, [])
  else if b = can then (⟨{ s with stream := none, track := none, file := none, record := none }, .command⟩, [])
  else (⟨s, .command⟩, [])

end SadieServer

namespace Session

/-- One byte from the client: the new state and what the server writes. -/
def receive (t : Tape) (σ : Session) (b : Byte) : Session × List Byte :=
  match σ.waiting with
  | .command => σ.server.command b
  | .request kind got =>
    let got := got ++ [b]
    if got.length < kind.size then ({ σ with waiting := .request kind got }, [])
    else σ.server.handle t kind got
  | .legacyReply payload =>
    if b = Serial.ack then
      (⟨{ σ.server with streamPosition := σ.server.streamPosition + payload.length }, .command⟩, [])
    else if b = nak then (σ, Serial.packet payload)
    else ({ σ with waiting := .stopped }, [])
  | .eof =>
    if b = Serial.ack then ({ σ with waiting := .command }, []) else ({ σ with waiting := .stopped }, [])
  | .header payload =>
    if b = crcRequest then σ.server.send payload 0 else ({ σ with waiting := .stopped }, [])
  | .block payload index =>
    if b = traceBeforeStore ∨ b = traceAfterStore then (σ, [])
    else if b = Serial.ack then σ.server.send payload (index + 1)
    else if b = nak then (σ, recordPacket payload index)
    else ({ σ with waiting := .stopped }, [])
  | .eot =>
    if b = Serial.ack then ({ σ with waiting := .command }, []) else ({ σ with waiting := .stopped }, [])
  | .stopped => (σ, [])
  | .crashed => (σ, [])

/-- A run of bytes from the client. -/
def feed (t : Tape) (σ : Session) : List Byte → Session × List Byte
  | [] => (σ, [])
  | b :: bytes =>
    let next := σ.receive t b
    let rest := feed t next.1 bytes
    (rest.1, next.2 ++ rest.2)

end Session

end S8000.Sadie
