import S8000.Serial.Packet
import S8000.Foundation.Dict

namespace S8000.Serial

open Foundation Foundation.Bytes

/-- The logical files of the tape; special files take the place of files with their number. -/
structure Tape where
  files : List (List Byte)
  specialFiles : Dict ℕ (List Byte) := ∅

/-- `source()`, where the file exists. -/
def Tape.source? (t : Tape) (n : ℕ) : Option (List Byte) :=
  match t.specialFiles.get? n with
  | some data => some data
  | none => t.files[n]?

structure TapeServer where
  fileNumber : Option ℕ := none
  protocolVersion : Byte := 0
  position : ℕ := 0
  sequence : Option (BitVec 32) := none
  pendingPayload : Option (List Byte) := none
  pendingCount : Option ℕ := none

/-- The requests whose bytes `serve` reads behind the command byte. -/
inductive RequestKind where
  | openFile
  | legacyRead
  | read
  | space

def RequestKind.size : RequestKind → ℕ
  | openFile => 5
  | legacyRead => 3
  | read => 7
  | space => 2

/-- The place in `serve` where the server waits for a byte; `stopped` after an exception. -/
inductive Waiting where
  | command
  | request (kind : RequestKind) (got : List Byte)
  | block (payload : List Byte) (index : ℕ)
  | eot
  | legacyReply (payload : List Byte)
  | stopped

structure Session where
  server : TapeServer := {}
  waiting : Waiting := .command

namespace TapeServer

variable (t : Tape)

def legacy (s : TapeServer) : Prop := (∃ n, s.fileNumber = some n ∧ n < 2) ∨ s.protocolVersion = 1

instance (s : TapeServer) : Decidable s.legacy :=
  match h : s.fileNumber with
  | none => decidable_of_iff (s.protocolVersion = 1) (by simp [legacy, h])
  | some n => decidable_of_iff (n < 2 ∨ s.protocolVersion = 1) (by simp [legacy, h])

def source (s : TapeServer) : List Byte := ((s.fileNumber.bind t.source?)).getD []

/-- `source[position:position + count]`. -/
def readAt (s : TapeServer) (count : ℕ) : List Byte := ((s.source t).drop s.position).take count

def answer (s : TapeServer) (b : Byte) : Session × List Byte := (⟨s, .command⟩, [b])

/-- Selects a file from its beginning. -/
def select (s : TapeServer) (n : ℕ) : TapeServer :=
  { s with
    fileNumber := some n
    position := 0
    sequence := none
    pendingPayload := none
    pendingCount := none }

def openFile (s : TapeServer) (request : List Byte) : Session × List Byte :=
  let version := request.getD 2 0
  let requestedFile := request.getD 3 0
  if request.take 2 ≠ [charS, char8] ∨ (version ≠ 1 ∧ version ≠ xmodemVersion) ∨
      request.getD 4 0 ≠ xorAll [soh, charS, char8, version, requestedFile] ∨
      t.source? requestedFile.toNat = none then s.answer can
  else answer { s.select requestedFile.toNat with protocolVersion := version } ack

/-- Sends a payload in blocks, followed by `EOT`. -/
def transmit (s : TapeServer) (payload : List Byte) : Session × List Byte :=
  if payload.length % xmodemBlockSize ≠ 0 then (⟨s, .stopped⟩, [])
  else if payload = [] then (⟨s, .eot⟩, [Serial.eot])
  else (⟨s, .block payload 0⟩, blockPacket payload 0)

/-- A new sequence number makes its payload pending. -/
def begin (s : TapeServer) (sequence : BitVec 32) (requested : ℕ) : TapeServer :=
  { s with
    sequence := some sequence
    pendingCount := some requested
    pendingPayload := some (s.readAt t requested) }

def commit (s : TapeServer) : TapeServer :=
  { s with position := s.position + (s.pendingPayload.getD []).length }

def read (s : TapeServer) (request : List Byte) : Session × List Byte :=
  let sequence := word (request.getD 0 0) (request.getD 1 0) ++
    word (request.getD 2 0) (request.getD 3 0)
  let requested := (word (request.getD 4 0) (request.getD 5 0)).toNat
  if request.getD 6 0 ≠ xorAll (charR :: request.take 6) then s.answer can
  else
    match s.sequence with
    | none =>
      let s := s.begin t sequence requested
      s.transmit (s.pendingPayload.getD [])
    | some current =>
      if sequence = current then
        if s.pendingCount ≠ some requested then s.answer can
        else s.transmit (s.pendingPayload.getD [])
      else if sequence = current + 1 then
        let s := (s.commit).begin t sequence requested
        s.transmit (s.pendingPayload.getD [])
      else s.answer can

def legacyRead (s : TapeServer) (request : List Byte) : Session × List Byte :=
  let requested := (word (request.getD 0 0) (request.getD 1 0)).toNat
  if request.getD 2 0 ≠ xorAll [charR, request.getD 0 0, request.getD 1 0] then s.answer can
  else
    let payload := s.readAt t requested
    if payload = [] ∧ (∃ n, s.fileNumber = some n ∧ n < 5) then s.answer Serial.eot
    else (⟨s, .legacyReply payload⟩, packet payload)

def space (s : TapeServer) (request : List Byte) : Session × List Byte :=
  let count := request.getD 0 0
  match s.fileNumber with
  | none => s.answer can
  | some oldFile =>
    if count = 0 ∨ request.getD 1 0 ≠ xorAll [charF, count] then s.answer can
    else if t.source? (oldFile + count.toNat) = none then s.answer can
    else (s.select (oldFile + count.toNat)).answer ack

def close (s : TapeServer) : TapeServer :=
  { s with
    fileNumber := none
    position := 0
    sequence := none
    pendingPayload := none
    pendingCount := none }

/-- A complete request. -/
def handle (s : TapeServer) : RequestKind → List Byte → Session × List Byte
  | .openFile, request => s.openFile t request
  | .legacyRead, request => s.legacyRead t request
  | .read, request => s.read t request
  | .space, request => s.space t request

/-- The byte that begins a request. -/
def command (s : TapeServer) (b : Byte) : Session × List Byte :=
  if b = soh then (⟨s, .request .openFile []⟩, [])
  else if b = charR then
    if s.fileNumber = none then s.answer can
    else if s.legacy then (⟨s, .request .legacyRead []⟩, [])
    else (⟨s, .request .read []⟩, [])
  else if b = charF then (⟨s, .request .space []⟩, [])
  else if b = can then (⟨s.close, .command⟩, [])
  else (⟨s, .command⟩, [])

end TapeServer

namespace Session

/-- One byte from the client: the new state and what the server writes. -/
def receive (t : Tape) (σ : Session) (b : Byte) : Session × List Byte :=
  match σ.waiting with
  | .command => σ.server.command b
  | .request kind got =>
    let got := got ++ [b]
    if got.length < kind.size then ({ σ with waiting := .request kind got }, [])
    else σ.server.handle t kind got
  | .block payload index =>
    if b = ack then
      if (index + 1) * xmodemBlockSize < payload.length then
        ({ σ with waiting := .block payload (index + 1) }, blockPacket payload (index + 1))
      else ({ σ with waiting := .eot }, [eot])
    else if b = nak then (σ, blockPacket payload index)
    else ({ σ with waiting := .stopped }, [])
  | .eot =>
    if b = ack then ({ σ with waiting := .command }, [])
    else if b = nak then (σ, [eot])
    else ({ σ with waiting := .stopped }, [])
  | .legacyReply payload =>
    if b = ack then
      (⟨{ σ.server with position := σ.server.position + payload.length }, .command⟩, [])
    else if b = nak then (σ, packet payload)
    else ({ σ with waiting := .stopped }, [])
  | .stopped => (σ, [])

/-- A run of bytes from the client. -/
def feed (t : Tape) (σ : Session) : List Byte → Session × List Byte
  | [] => (σ, [])
  | b :: bytes =>
    let next := σ.receive t b
    let rest := feed t next.1 bytes
    (rest.1, next.2 ++ rest.2)

theorem feed_append (t : Tape) (σ : Session) (a b : List Byte) :
    σ.feed t (a ++ b) =
      (((σ.feed t a).1.feed t b).1, (σ.feed t a).2 ++ ((σ.feed t a).1.feed t b).2) := by
  induction a generalizing σ with
  | nil => rfl
  | cons c a ih => simp only [List.cons_append, feed, ih, List.append_assoc]

/-- The bytes of a request are handled together when the last one is there. -/
theorem feed_request (t : Tape) (s : TapeServer) (kind : RequestKind) (got bytes : List Byte)
    (hne : bytes ≠ []) (hlen : (got ++ bytes).length = kind.size) :
    feed t ⟨s, .request kind got⟩ bytes = s.handle t kind (got ++ bytes) := by
  induction bytes generalizing got with
  | nil => exact absurd rfl hne
  | cons b bytes ih =>
    cases bytes with
    | nil =>
      have hsize : ¬ (got ++ [b]).length < kind.size := by omega
      simp only [feed, receive, if_neg hsize, List.append_nil]
    | cons c bytes =>
      have hsize : (got ++ [b]).length < kind.size := by
        rw [← hlen]
        simp only [List.length_append, List.length_cons, List.length_nil]
        omega
      have hassoc : got ++ b :: c :: bytes = got ++ [b] ++ c :: bytes := by simp
      rw [feed]
      simp only [receive, if_pos hsize, List.nil_append]
      rw [hassoc]
      exact ih (got ++ [b]) (by simp) (by rw [← hassoc]; exact hlen)

end Session

end S8000.Serial
