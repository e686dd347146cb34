import S8000.Sadie.Frame

namespace S8000.Sadie

open Foundation Foundation.Bytes Serial

/-- The server and the driver between two transmissions. -/
structure Link where
  session : Session
  machine : Machine
  outcome : Outcome
  sent : List Byte := []

/-- A call of `_sadie_read`; its request arrives. -/
def call (t : Tape) (σ : Session) (M : Machine) : Link :=
  let out := sadieRead { M.cpu with rx := [], tx := [] }
  let reply := σ.feed t out.2.tx
  { session := reply.1, machine := { M with cpu := out.2 }, outcome := out.1, sent := reply.2 }

namespace Link

variable (t : Tape)

/-- The driver before a round. -/
def hearing (l : Link) (f : Fate) : Machine :=
  { l.machine with cpu := { l.machine.cpu with rx := l.machine.cpu.rx ++ f.events, tx := [] } }

/-- The driver takes one round and the server its answer. What is lost is the last byte of it. -/
def turn (l : Link) (stage : Stage) (f : Fate) : Link :=
  let out := round (l.hearing f) stage
  let answer := out.2.cpu.tx
  let reply := l.session.feed t (if f.lost then answer.dropLast else answer)
  { session := reply.1, machine := out.2, outcome := out.1, sent := reply.2 }

/-- A data packet is on its way. -/
def Data (l : Link) : Prop := l.sent.head? = some soh

/-- Data packets arrive intact or damaged, and the acknowledgement of one may be lost; everything
else arrives. -/
structure Fair (l : Link) (stage : Stage) (f : Fate) : Prop where
  events : f.events = l.sent.map some ∨ l.Data ∧ Damaged l.sent f.events
  lost : f.lost = true →
    l.Data ∧ (round (l.hearing f) stage).2.cpu.tx.getLast? = some Serial.ack

/-- The states of a call. -/
inductive Run (l₀ : Link) : Link → Prop
  | start : Run l₀ l₀
  | turn {l : Link} {stage : Stage} {f : Fate} : Run l₀ l → l.outcome = .wait stage →
    l.Fair stage f → Run l₀ (l.turn t stage f)

end Link

/-- The number of packets of a payload. -/
def blocks (payload : List Byte) : ℕ := (payload.length + (xmodemBlockSize - 1)) / xmodemBlockSize

/-- The pieces in which the packets carry a list of records. -/
def pieces (records : List (List Byte)) : List (List Byte) :=
  records.flatMap fun payload ↦ (List.range (blocks payload)).map (blockOf payload)

theorem pieces_concat (done : List (List Byte)) (payload : List Byte) :
    pieces (done ++ [payload]) =
      pieces done ++ (List.range (blocks payload)).map (blockOf payload) := by
  rw [pieces, List.flatMap_append, List.flatMap_singleton]
  rfl

/-- What `n` record reads of at most `k` bytes together take from a list of records: each whole
but for the last, which is cut to the bytes that are left. -/
def readRecords : ℕ → ℕ → List (List Byte) → List (List Byte)
  | n + 1, k + 1, record :: records =>
    record.take (k + 1) :: readRecords n (k + 1 - (record.take (k + 1)).length) records
  | _, _, _ => []

theorem readRecords_no_bytes (n : ℕ) (records : List (List Byte)) :
    readRecords n 0 records = [] := by
  cases n <;> rfl

theorem readRecords_nil (n k : ℕ) : readRecords n k [] = [] := by
  cases n with
  | zero => rfl
  | succ n => cases k <;> rfl

theorem readRecords_cons (n : ℕ) {k : ℕ} (hk : k ≠ 0) (record : List Byte)
    (records : List (List Byte)) :
    readRecords (n + 1) k (record :: records) =
      record.take k :: readRecords n (k - (record.take k).length) records := by
  cases k with
  | zero => exact absurd rfl hk
  | succ k => rfl

end S8000.Sadie
