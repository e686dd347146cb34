import S8000.Serial.ExactlyOnce

namespace S8000.Serial

open Foundation Foundation.Bytes

/-- The requests as the clients emit them: the programs of the bootstrap open files with version 1
and read with 4 bytes, `serial_ct` opens them with version 3 and reads with 8. -/
inductive Emitted where
  | bootstrapOpen (file : Byte)
  | ctopen (file : Byte)
  | bootstrapRead (count : Word)
  | ctstrategy (offset : BitVec 32) (count : Word)
  | ctioctl (count : Byte)
  | ctclose
deriving DecidableEq

namespace Emitted

def openBytes (version file : Byte) : List Byte :=
  (Request.openFile charS char8 version file (xorAll [soh, charS, char8, version, file])).bytes

def bytes : Emitted → List Byte
  | bootstrapOpen file => openBytes 1 file
  | ctopen file => openBytes xmodemVersion file
  | bootstrapRead count => [charR, high count, low count, xorAll [charR, high count, low count]]
  | ctstrategy offset count => (Request.read offset count (Request.readCheck offset count)).bytes
  | ctioctl count => (Request.space count (xorAll [charF, count])).bytes
  | ctclose => Request.close.bytes

end Emitted

/-- The bytes that a read with 8 bytes asks for; none for one that is refused. -/
def TapeServer.offered (t : Tape) (s : TapeServer) (offset : BitVec 32) (count : Word) : List Byte :=
  match s.sequence with
  | none => s.readAt t count.toNat
  | some current =>
    if offset = current then
      if s.pendingCount = some count.toNat then s.pendingPayload.getD [] else []
    else if offset = current + 1 then s.commit.readAt t count.toNat
    else []

/-- A request that the server reads to its last byte before it acts, and then answers; only the
close is not answered. -/
structure Consumed (t : Tape) (s : TapeServer) (r : Emitted) : Prop where
  waits : ∀ a b, r.bytes = a ++ b → a ≠ [] → b ≠ [] →
    ∃ kind got, Session.feed t ⟨s, .command⟩ a = (⟨s, .request kind got⟩, [])
  acts : ∀ kind got, (Session.feed t ⟨s, .command⟩ r.bytes).1.waiting ≠ .request kind got
  runs : (Session.feed t ⟨s, .command⟩ r.bytes).1.waiting ≠ .stopped
  replies : (Session.feed t ⟨s, .command⟩ r.bytes).2 = [] ↔ r = .ctclose

/-- The client answers with `ACK` and `NAK` until the server waits for a command. -/
inductive Dialogue (t : Tape) : Session → TapeServer → Prop
  | done (s : TapeServer) : Dialogue t ⟨s, .command⟩ s
  | reply {σ : Session} {s : TapeServer} (b : Byte) : σ.waiting ≠ .command → b = ack ∨ b = nak →
    Dialogue t (σ.receive t b).1 s → Dialogue t σ s

/-- Every request of a run is consumed where its turn comes. -/
def Framed (t : Tape) : TapeServer → List Emitted → Prop
  | _, [] => True
  | s, r :: rs => Consumed t s r ∧
    ∀ s', Dialogue t (Session.feed t ⟨s, .command⟩ r.bytes).1 s' → Framed t s' rs

/-- What the server can take in the state it is in: a read needs an open file, the format that
goes with the file and its version, and whole blocks. -/
def Takes (t : Tape) (s : TapeServer) : Emitted → Prop
  | .bootstrapRead _ => s.fileNumber ≠ none ∧ s.legacy
  | .ctstrategy offset count => s.fileNumber ≠ none ∧ ¬ s.legacy ∧
    (s.offered t offset count).length % xmodemBlockSize = 0
  | _ => True

/-- Every request of a run is one that the server can take. -/
def Taken (t : Tape) : TapeServer → List Emitted → Prop
  | _, [] => True
  | s, r :: rs => Takes t s r ∧
    ∀ s', Dialogue t (Session.feed t ⟨s, .command⟩ r.bytes).1 s' → Taken t s' rs

section Handling

/-- The outcome of a complete request: an answer, or the end of the server. -/
structure Outcome (q : Session × List Byte) : Prop where
  acts : ∀ kind got, q.1.waiting ≠ .request kind got
  silent : q.2 = [] ↔ q.1.waiting = .stopped

variable (t : Tape) (s : TapeServer)

theorem outcome_answer (b : Byte) : Outcome (s.answer b) :=
  ⟨by simp [TapeServer.answer], by simp [TapeServer.answer]⟩

theorem outcome_transmit (payload : List Byte) : Outcome (s.transmit payload) := by
  unfold TapeServer.transmit
  split
  · exact ⟨by simp, by simp⟩
  split
  · exact ⟨by simp, by simp⟩
  · exact ⟨by simp, by simp [blockPacket, xmodemPacket]⟩

theorem outcome_handle (kind : RequestKind) (request : List Byte) :
    Outcome (s.handle t kind request) := by
  cases kind with
  | openFile =>
    simp only [TapeServer.handle, TapeServer.openFile]
    split
    · exact outcome_answer _ _
    · exact outcome_answer _ _
  | legacyRead =>
    simp only [TapeServer.handle, TapeServer.legacyRead]
    split
    · exact outcome_answer _ _
    split
    · exact outcome_answer _ _
    · exact ⟨by simp, by simp [packet]⟩
  | read =>
    simp only [TapeServer.handle, TapeServer.read]
    split
    · exact outcome_answer _ _
    split
    · exact outcome_transmit _ _
    split
    · split
      · exact outcome_answer _ _
      · exact outcome_transmit _ _
    split
    · exact outcome_transmit _ _
    · exact outcome_answer _ _
  | space =>
    simp only [TapeServer.handle, TapeServer.space]
    split
    · exact outcome_answer _ _
    split
    · exact outcome_answer _ _
    split
    · exact outcome_answer _ _
    · exact outcome_answer _ _

theorem openFile_not_stopped (request : List Byte) : (s.openFile t request).1.waiting ≠ .stopped := by
  simp only [TapeServer.openFile]
  split <;> simp [TapeServer.answer]

theorem legacyRead_not_stopped (request : List Byte) :
    (s.legacyRead t request).1.waiting ≠ .stopped := by
  simp only [TapeServer.legacyRead]
  split
  · simp [TapeServer.answer]
  split
  · simp [TapeServer.answer]
  · simp

theorem space_not_stopped (request : List Byte) : (s.space t request).1.waiting ≠ .stopped := by
  simp only [TapeServer.space]
  split
  · simp [TapeServer.answer]
  split
  · simp [TapeServer.answer]
  split
  · simp [TapeServer.answer]
  · simp [TapeServer.answer]

theorem transmit_stopped_iff (payload : List Byte) :
    (s.transmit payload).1.waiting = .stopped ↔ payload.length % xmodemBlockSize ≠ 0 := by
  unfold TapeServer.transmit
  split
  · simp_all
  split
  · simp_all
  · simp_all

/-- The server ends in a read with 8 bytes that leaves a part of a block. -/
theorem read_stopped_iff (offset : BitVec 32) (count : Word) :
    (s.read t (Request.read offset count (Request.readCheck offset count)).bytes.tail).1.waiting =
      .stopped ↔ (s.offered t offset count).length % xmodemBlockSize ≠ 0 := by
  rw [read_eq, if_neg (by simp), TapeServer.offered]
  cases s.sequence with
  | none => exact transmit_stopped_iff _ _
  | some current =>
    simp only
    by_cases hsame : offset = current
    · rw [if_pos hsame, if_pos hsame]
      by_cases hcount : s.pendingCount = some count.toNat
      · rw [if_neg (not_not.mpr hcount), if_pos hcount]
        exact transmit_stopped_iff _ _
      · rw [if_pos hcount, if_neg hcount]
        simp [TapeServer.answer]
    rw [if_neg hsame, if_neg hsame]
    split
    · exact transmit_stopped_iff _ _
    · simp [TapeServer.answer]

end Handling

section Consuming

variable {t : Tape} {s : TapeServer}

/-- Fewer bytes than a request has keep the server waiting. -/
theorem feed_part (kind : RequestKind) (got a : List Byte) (hlen : (got ++ a).length < kind.size) :
    Session.feed t ⟨s, .request kind got⟩ a = (⟨s, .request kind (got ++ a)⟩, []) := by
  induction a generalizing got with
  | nil => simp [Session.feed]
  | cons b a ih =>
    have hassoc : got ++ b :: a = got ++ [b] ++ a := by simp
    have hsize : (got ++ [b]).length < kind.size := by
      rw [hassoc, List.length_append] at hlen
      omega
    rw [Session.feed]
    simp only [Session.receive, if_pos hsize, List.nil_append]
    rw [hassoc]
    exact ih (got ++ [b]) (by rw [← hassoc]; exact hlen)

/-- A request whose first byte makes the server wait for just its other bytes is consumed, unless
it ends the server. -/
theorem consumed_iff_of_kind {r : Emitted} (kind : RequestKind) (c : Byte) (tail : List Byte)
    (hbytes : r.bytes = c :: tail) (hc : s.command c = (⟨s, .request kind []⟩, []))
    (htail : tail ≠ []) (hlen : tail.length = kind.size) (hr : r ≠ .ctclose) :
    Consumed t s r ↔ (s.handle t kind tail).1.waiting ≠ .stopped := by
  have hfirst : ∀ a, Session.feed t ⟨s, .command⟩ (c :: a) = Session.feed t ⟨s, .request kind []⟩ a := by
    intro a
    rw [Session.feed]
    simp only [Session.receive, hc, List.nil_append]
  have hall : Session.feed t ⟨s, .command⟩ r.bytes = s.handle t kind tail := by
    rw [hbytes, hfirst]
    exact Session.feed_request t s kind [] tail htail hlen
  have houtcome := outcome_handle t s kind tail
  constructor
  · intro h
    rw [← hall]
    exact h.runs
  · intro h
    refine ⟨?_, ?_, ?_, ?_⟩
    · intro a b hab ha hb
      rw [hbytes] at hab
      cases a with
      | nil => exact absurd rfl ha
      | cons c' a =>
        obtain ⟨rfl, hsplit⟩ := List.cons.inj hab
        have hpos := List.length_pos_iff.mpr hb
        have hshort : ([] ++ a).length < kind.size := by
          rw [List.nil_append, ← hlen, hsplit, List.append_eq, List.length_append]
          omega
        exact ⟨kind, a, by rw [hfirst, feed_part kind [] a hshort, List.nil_append]⟩
    · rw [hall]
      exact houtcome.acts
    · rw [hall]
      exact h
    · rw [hall, houtcome.silent]
      exact ⟨fun hstop ↦ absurd hstop h, fun hclose ↦ absurd hclose hr⟩

theorem command_soh : s.command soh = (⟨s, .request .openFile []⟩, []) := rfl

theorem command_charF : s.command charF = (⟨s, .request .space []⟩, []) := rfl

theorem command_charR : s.command charR =
    if s.fileNumber = none then s.answer can
    else if s.legacy then (⟨s, .request .legacyRead []⟩, [])
    else (⟨s, .request .read []⟩, []) := rfl

/-- A read that finds no open file is answered after its first byte. -/
theorem not_consumed_of_unopened {r : Emitted} (h : s.fileNumber = none) {tail : List Byte}
    (hbytes : r.bytes = charR :: tail) (htail : tail ≠ []) : ¬ Consumed t s r := by
  intro hr
  obtain ⟨kind, got, hfeed⟩ := hr.waits [charR] tail hbytes (by simp) htail
  have hout : (Session.feed t ⟨s, .command⟩ [charR]).2 = [can] := by
    simp only [Session.feed, Session.receive, command_charR, if_pos h, TapeServer.answer,
      List.append_nil]
  rw [hfeed] at hout
  cases hout

theorem consumed_open (version file : Byte) {r : Emitted}
    (hbytes : r.bytes = Emitted.openBytes version file) (hr : r ≠ .ctclose) : Consumed t s r :=
  (consumed_iff_of_kind .openFile soh _ hbytes command_soh (by simp) rfl hr).mpr
    (openFile_not_stopped t s _)

theorem consumed_bootstrapRead_iff (count : Word) :
    Consumed t s (.bootstrapRead count) ↔ s.fileNumber ≠ none ∧ s.legacy := by
  by_cases hfile : s.fileNumber = none
  · exact ⟨fun h ↦ absurd h (not_consumed_of_unopened hfile rfl (by simp)), fun h ↦ absurd hfile h.1⟩
  by_cases hlegacy : s.legacy
  · have hc : s.command charR = (⟨s, .request .legacyRead []⟩, []) := by
      rw [command_charR, if_neg hfile, if_pos hlegacy]
    rw [consumed_iff_of_kind .legacyRead charR _ rfl hc (by simp) rfl (by simp)]
    exact ⟨fun _ ↦ ⟨hfile, hlegacy⟩, fun _ ↦ legacyRead_not_stopped t s _⟩
  · -- the server still waits for the other four bytes of the longer format
    have hc : s.command charR = (⟨s, .request .read []⟩, []) := by
      rw [command_charR, if_neg hfile, if_neg hlegacy]
    refine ⟨fun h ↦ ?_, fun h ↦ absurd h.2 hlegacy⟩
    refine absurd ?_ (h.acts .read (Emitted.bootstrapRead count).bytes.tail)
    rw [Emitted.bytes, Session.feed]
    simp only [Session.receive, hc]
    rw [feed_part .read [] _ (by simp [RequestKind.size])]
    rfl

theorem consumed_ctstrategy_iff (offset : BitVec 32) (count : Word) :
    Consumed t s (.ctstrategy offset count) ↔ s.fileNumber ≠ none ∧ ¬ s.legacy ∧
      (s.offered t offset count).length % xmodemBlockSize = 0 := by
  by_cases hfile : s.fileNumber = none
  · exact ⟨fun h ↦ absurd h (not_consumed_of_unopened hfile rfl (by simp)), fun h ↦ absurd hfile h.1⟩
  by_cases hlegacy : s.legacy
  · -- the server acts on the fourth of the eight bytes
    have hc : s.command charR = (⟨s, .request .legacyRead []⟩, []) := by
      rw [command_charR, if_neg hfile, if_pos hlegacy]
    refine ⟨fun h ↦ ?_, fun h ↦ absurd hlegacy h.2.1⟩
    obtain ⟨kind, got, hfeed⟩ := h.waits ((Emitted.ctstrategy offset count).bytes.take 4)
      ((Emitted.ctstrategy offset count).bytes.drop 4) (List.take_append_drop 4 _).symm
      (by simp [Emitted.bytes, Request.bytes]) (by simp [Emitted.bytes, Request.bytes])
    have hact : Session.feed t ⟨s, .command⟩ ((Emitted.ctstrategy offset count).bytes.take 4) =
        s.handle t .legacyRead ((Emitted.ctstrategy offset count).bytes.take 4).tail := by
      change Session.feed t ⟨s, .command⟩ (charR :: _) = _
      rw [Session.feed]
      simp only [Session.receive, hc, List.nil_append]
      exact Session.feed_request t s .legacyRead [] _ (by simp) rfl
    have hacts := (outcome_handle t s .legacyRead
      ((Emitted.ctstrategy offset count).bytes.take 4).tail).acts kind got
    rw [← hact, hfeed] at hacts
    exact absurd rfl hacts
  · have hc : s.command charR = (⟨s, .request .read []⟩, []) := by
      rw [command_charR, if_neg hfile, if_neg hlegacy]
    rw [consumed_iff_of_kind .read charR
      (Request.read offset count (Request.readCheck offset count)).bytes.tail rfl hc
      (by simp [Request.bytes]) rfl (by simp), ne_eq]
    rw [TapeServer.handle, read_stopped_iff, ne_eq, not_not]
    exact ⟨fun h ↦ ⟨hfile, hlegacy, h⟩, fun h ↦ h.2.2⟩

theorem consumed_ctclose : Consumed t s .ctclose := by
  have hall : Session.feed t ⟨s, .command⟩ (Emitted.bytes .ctclose) = (⟨s.close, .command⟩, []) :=
    feed_close t s
  refine ⟨?_, ?_, ?_, ?_⟩
  · intro a b hab ha hb
    have hlen := congrArg List.length hab
    rw [List.length_append] at hlen
    have hapos := List.length_pos_iff.mpr ha
    have hbpos := List.length_pos_iff.mpr hb
    have hone : (Emitted.bytes .ctclose).length = 1 := rfl
    omega
  · simp [hall]
  · simp [hall]
  · simp [hall]

theorem consumed_iff (r : Emitted) : Consumed t s r ↔ Takes t s r := by
  cases r with
  | bootstrapOpen file => exact iff_of_true (consumed_open 1 file rfl (by simp)) trivial
  | ctopen file => exact iff_of_true (consumed_open xmodemVersion file rfl (by simp)) trivial
  | bootstrapRead count => exact consumed_bootstrapRead_iff count
  | ctstrategy offset count => exact consumed_ctstrategy_iff offset count
  | ctioctl count =>
    refine iff_of_true ((consumed_iff_of_kind .space charF _ rfl command_charF (by simp) rfl
      (by simp)).mpr ?_) trivial
    exact space_not_stopped t s _
  | ctclose => exact iff_of_true consumed_ctclose trivial

end Consuming

/-- The server and its clients agree on the bounds of the requests of a run exactly when each of
its reads is one that the server can take where it comes. -/
theorem framed_iff_taken (t : Tape) (s : TapeServer) (requests : List Emitted) :
    Framed t s requests ↔ Taken t s requests := by
  induction requests generalizing s with
  | nil => exact Iff.rfl
  | cons r rs ih =>
    refine and_congr (consumed_iff r) (forall_congr' fun s' ↦ ?_)
    exact imp_congr_right fun _ ↦ ih s'

/-- The last byte of a read that finds no open file is the character that begins one. -/
theorem unopened_read_not_framed : ¬ Framed ⟨[], ∅⟩ {} [.bootstrapRead 0] := by
  intro h
  exact not_consumed_of_unopened rfl rfl (by simp) h.1

end S8000.Serial
