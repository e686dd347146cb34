import S8000.Serial.TapeServer
import Mathlib.Data.List.Chain

namespace S8000.Serial

open Foundation Foundation.Bytes

/-- The requests of a client of protocol version 3, with right or wrong check bytes. -/
inductive Request where
  | openFile (magic0 magic1 version file check : Byte)
  | read (sequence : BitVec 32) (count : Word) (check : Byte)
  | space (count check : Byte)
  | close

namespace Request

def bytes : Request → List Byte
  | openFile m0 m1 version file check => [soh, m0, m1, version, file, check]
  | read sequence count check =>
    [charR, high (sequence.extractLsb' 16 16), low (sequence.extractLsb' 16 16),
      high (sequence.extractLsb' 0 16), low (sequence.extractLsb' 0 16), high count, low count, check]
  | space count check => [charF, count, check]
  | close => [can]

/-- The check byte that goes with a read request. -/
def readCheck (sequence : BitVec 32) (count : Word) : Byte :=
  xorAll [charR, high (sequence.extractLsb' 16 16), low (sequence.extractLsb' 16 16),
    high (sequence.extractLsb' 0 16), low (sequence.extractLsb' 0 16), high count, low count]

/-- The requests the protocol is for: files from number 2 on whose lengths are whole blocks,
opened with version 3, and reads of whole blocks. -/
def Admissible (t : Tape) (s : TapeServer) : Request → Prop
  | openFile _ _ version file _ => version ≠ 1 ∧ 2 ≤ file.toNat ∧
    ∀ data, t.source? file.toNat = some data → data.length % xmodemBlockSize = 0
  | read _ count _ => count.toNat % xmodemBlockSize = 0
  | space count _ => ∀ n, s.fileNumber = some n →
    ∀ data, t.source? (n + count.toNat) = some data → data.length % xmodemBlockSize = 0
  | close => True

/-- A read request finds no open file. -/
def Unopened (s : TapeServer) : Request → Prop
  | read _ _ _ => s.fileNumber = none
  | _ => False

end Request

/-- What a client sees of the selected file: its number, and the sequence number and payload
of every read that was answered, repetitions left out. -/
structure History where
  file : Option ℕ := none
  reads : List (BitVec 32 × List Byte) := []

/-- The payload of a transfer that has just begun. -/
def Session.sending? (σ : Session) : Option (List Byte) :=
  match σ.waiting with
  | .block payload _ => some payload
  | .eot => some []
  | _ => none

/-- The history after a request, from the state it left and what was answered. -/
def History.record (h : History) (σ : Session) (out : List Byte) : Request → History
  | .openFile _ _ _ file _ => if out = [ack] then { file := some file.toNat } else h
  | .space count _ => if out = [ack] then { file := h.file.map (· + count.toNat) } else h
  | .close => {}
  | .read sequence _ _ =>
    match σ.sending? with
    | none => h
    | some payload =>
      if (h.reads.getLast?).map Prod.fst = some sequence then h
      else { h with reads := h.reads ++ [(sequence, payload)] }

/-- The states of a session, request after request; every transfer is answered with `NAK`s
and `ACK`s until it ends, and no read is requested while no file is open. -/
inductive Reach (t : Tape) : Session → History → Prop
  | start : Reach t {} {}
  | request {σ : Session} {h : History} (req : Request) : Reach t σ h → σ.waiting = .command →
      req.Admissible t σ.server → ¬ req.Unopened σ.server →
      Reach t (σ.feed t req.bytes).1 (h.record (σ.feed t req.bytes).1 (σ.feed t req.bytes).2 req)
  | reply {σ : Session} {h : History} (b : Byte) : Reach t σ h → σ.sending?.isSome →
      b = ack ∨ b = nak → Reach t (σ.receive t b).1 h

section Requests

variable (t : Tape) (s : TapeServer)

theorem feed_openFile (m0 m1 version file check : Byte) :
    Session.feed t ⟨s, .command⟩ (Request.openFile m0 m1 version file check).bytes =
      s.openFile t [m0, m1, version, file, check] := by
  rw [Request.bytes, Session.feed]
  simp only [Session.receive, TapeServer.command, if_pos, List.nil_append]
  exact Session.feed_request t s .openFile [] _ (by simp) rfl

theorem feed_space (count check : Byte) :
    Session.feed t ⟨s, .command⟩ (Request.space count check).bytes = s.space t [count, check] := by
  have hF : charF ≠ soh ∧ charF ≠ charR := by decide
  rw [Request.bytes, Session.feed]
  simp only [Session.receive, TapeServer.command, hF.1, hF.2, if_false, if_true, List.nil_append]
  exact Session.feed_request t s .space [] _ (by simp) rfl

theorem feed_close : Session.feed t ⟨s, .command⟩ Request.close.bytes = (⟨s.close, .command⟩, []) := by
  have hC : can ≠ soh ∧ can ≠ charR ∧ can ≠ charF := by decide
  simp only [Request.bytes, Session.feed, Session.receive, TapeServer.command, hC.1, hC.2.1,
    hC.2.2, if_false, if_true, List.append_nil]

variable {s}

theorem feed_read (hfile : s.fileNumber ≠ none) (hlegacy : ¬ s.legacy) (sequence : BitVec 32)
    (count : Word) (check : Byte) :
    Session.feed t ⟨s, .command⟩ (Request.read sequence count check).bytes =
      s.read t (Request.read sequence count check).bytes.tail := by
  have hR : charR ≠ soh := by decide
  rw [Request.bytes, Session.feed]
  simp only [Session.receive, TapeServer.command, hR, hfile, hlegacy, if_false, if_true,
    List.nil_append]
  exact Session.feed_request t s .read [] _ (by simp) rfl

/-- How a read request is answered. -/
theorem read_eq (sequence : BitVec 32) (count : Word) (check : Byte) :
    s.read t (Request.read sequence count check).bytes.tail =
      if check ≠ Request.readCheck sequence count then s.answer can
      else match s.sequence with
        | none => (s.begin t sequence count.toNat).transmit (s.readAt t count.toNat)
        | some current =>
          if sequence = current then
            if s.pendingCount ≠ some count.toNat then s.answer can
            else s.transmit (s.pendingPayload.getD [])
          else if sequence = current + 1 then
            (s.commit.begin t sequence count.toNat).transmit (s.commit.readAt t count.toNat)
          else s.answer can := by
  have hseq : word (high (sequence.extractLsb' 16 16)) (low (sequence.extractLsb' 16 16)) ++
      word (high (sequence.extractLsb' 0 16)) (low (sequence.extractLsb' 0 16)) = sequence := by
    rw [word_high_low, word_high_low, extractLsb'_append]
  have hcount : word (high count) (low count) = count := word_high_low count
  simp only [TapeServer.read, Request.bytes, List.tail_cons, List.getD_cons_zero,
    List.getD_cons_succ, hseq, hcount, Request.readCheck, List.take_succ_cons, List.take_zero]
  rfl

end Requests

/-- The bytes delivered so far. -/
def History.delivered (h : History) : List Byte := (h.reads.map Prod.snd).flatten

/-- What every state of a session keeps: the pending payload is the last read, everything
before it is committed, and the reads so far are the beginning of the selected file. -/
structure Consistent (t : Tape) (s : TapeServer) (h : History) : Prop where
  file_eq : s.fileNumber = h.file
  closed : s.fileNumber = none → s.position = 0 ∧ h.reads = []
  opened : ∀ n, s.fileNumber = some n → 2 ≤ n ∧ s.protocolVersion ≠ 1 ∧
    ∃ data, t.source? n = some data ∧ data.length % xmodemBlockSize = 0
  sequence_eq : s.sequence = h.reads.getLast?.map Prod.fst
  payload_eq : s.pendingPayload = h.reads.getLast?.map Prod.snd
  pending : ∀ p, s.pendingPayload = some p → ∃ c, s.pendingCount = some c ∧ p = s.readAt t c
  idle : s.pendingPayload = none → s.pendingCount = none
  position_eq : s.position = (h.reads.dropLast.map Prod.snd).flatten.length
  in_order : h.delivered <+: s.source t
  blocks : ∀ r ∈ h.reads, r.2.length % xmodemBlockSize = 0
  chain : (h.reads.map Prod.fst).IsChain fun a b ↦ b = a + 1

namespace Consistent

variable {t : Tape} {s : TapeServer} {h : History}

theorem empty (v : Byte) : Consistent t { protocolVersion := v } {} where
  file_eq := rfl
  closed _ := ⟨rfl, rfl⟩
  opened n hn := by cases hn
  sequence_eq := rfl
  payload_eq := rfl
  pending p hp := by cases hp
  idle _ := rfl
  position_eq := rfl
  in_order := List.nil_prefix
  blocks r hr := by cases hr
  chain := List.isChain_nil

/-- A file selected from its beginning. -/
theorem select (s : TapeServer) {n : ℕ} {v : Byte} {data : List Byte} (hn : 2 ≤ n) (hv : v ≠ 1)
    (hdata : t.source? n = some data) (hlen : data.length % xmodemBlockSize = 0) :
    Consistent t { s.select n with protocolVersion := v } { file := some n } where
  file_eq := rfl
  closed hc := by cases hc
  opened m hm := by
    obtain rfl := Option.some.inj hm
    exact ⟨hn, hv, data, hdata, hlen⟩
  sequence_eq := rfl
  payload_eq := rfl
  pending p hp := by cases hp
  idle _ := rfl
  position_eq := rfl
  in_order := List.nil_prefix
  blocks r hr := by cases hr
  chain := List.isChain_nil

theorem not_legacy (hc : Consistent t s h) (hfile : s.fileNumber ≠ none) : ¬ s.legacy := by
  obtain ⟨n, hn⟩ := Option.ne_none_iff_exists'.mp hfile
  obtain ⟨h2, hv, -⟩ := hc.opened n hn
  rintro (⟨m, hm, hlt⟩ | hv')
  · obtain rfl := Option.some.inj (hn.symm.trans hm)
    omega
  · exact hv hv'

theorem length_source (hc : Consistent t s h) : (s.source t).length % xmodemBlockSize = 0 := by
  rw [TapeServer.source]
  cases hf : s.fileNumber with
  | none => rfl
  | some n =>
    obtain ⟨-, -, data, hdata, hlen⟩ := hc.opened n hf
    rw [Option.bind_some, hdata]
    exact hlen

theorem length_delivered_mod {reads : List (BitVec 32 × List Byte)}
    (hb : ∀ r ∈ reads, r.2.length % xmodemBlockSize = 0) :
    (reads.map Prod.snd).flatten.length % xmodemBlockSize = 0 := by
  induction reads with
  | nil => rfl
  | cons r reads ih =>
    have hr := hb r List.mem_cons_self
    have hrest := ih fun r' hr' ↦ hb r' (List.mem_cons_of_mem _ hr')
    rw [List.map_cons, List.flatten_cons, List.length_append]
    simp only [xmodemBlockSize] at *
    omega

/-- The pending payload ends where the delivered bytes end. -/
theorem length_delivered (hc : Consistent t s h) :
    h.delivered.length = s.position + (s.pendingPayload.getD []).length := by
  rw [hc.position_eq, hc.payload_eq, History.delivered]
  cases hr : h.reads using List.reverseRecOn with
  | nil => rfl
  | append_singleton reads r => simp

theorem position_le (hc : Consistent t s h) :
    s.position + (s.pendingPayload.getD []).length ≤ (s.source t).length := by
  rw [← hc.length_delivered]
  exact hc.in_order.length_le

/-- A read with a new sequence number goes on where the last one ended. -/
theorem begin (hc : Consistent t s h) (hfile : s.fileNumber ≠ none) {sequence : BitVec 32}
    {count : ℕ} (hcount : count % xmodemBlockSize = 0)
    (hseq : ∀ current, s.sequence = some current → sequence = current + 1) :
    Consistent t (s.commit.begin t sequence count)
      { h with reads := h.reads ++ [(sequence, s.commit.readAt t count)] } ∧
      (s.commit.readAt t count).length % xmodemBlockSize = 0 := by
  have hpos : s.commit.position = h.delivered.length := hc.length_delivered.symm
  have hsource : s.commit.source t = s.source t := rfl
  have hread : s.commit.readAt t count = ((s.source t).drop h.delivered.length).take count := by
    rw [TapeServer.readAt, hsource, hpos]
  have hle := hc.in_order.length_le
  have hblocks : (s.commit.readAt t count).length % xmodemBlockSize = 0 := by
    have hl := hc.length_source
    have hd := length_delivered_mod hc.blocks
    rw [hread, List.length_take, List.length_drop]
    change h.delivered.length % xmodemBlockSize = 0 at hd
    simp only [xmodemBlockSize] at *
    omega
  refine ⟨?_, hblocks⟩
  constructor
  · exact hc.file_eq
  · exact fun hn ↦ absurd hn hfile
  · exact hc.opened
  · simp [TapeServer.begin]
  · simp [TapeServer.begin]
  · intro p hp
    obtain rfl := Option.some.inj hp
    exact ⟨count, rfl, rfl⟩
  · intro hn
    cases hn
  · simp only [List.dropLast_concat]
    exact hpos
  · obtain ⟨rest, hrest⟩ := hc.in_order
    have hdelivered : History.delivered
        { h with reads := h.reads ++ [(sequence, s.commit.readAt t count)] } =
          h.delivered ++ s.commit.readAt t count := by
      simp [History.delivered]
    have hsource' : (s.commit.begin t sequence count).source t = s.source t := rfl
    rw [hdelivered, hsource', hread, ← hrest, List.drop_left]
    exact (List.prefix_append_right_inj _).mpr (List.take_prefix _ _)
  · intro r hr
    obtain hr | hr := List.mem_append.mp hr
    · exact hc.blocks r hr
    · rw [List.mem_singleton.mp hr]
      exact hblocks
  · rw [List.map_append, List.isChain_append]
    refine ⟨hc.chain, List.isChain_singleton _, fun x hx y hy ↦ ?_⟩
    obtain rfl := Option.some.inj hy
    rw [List.getLast?_map] at hx
    exact hseq x (hc.sequence_eq.trans hx)

/-- A read is canceled, or answered with a payload that is recorded unless its sequence number
is repeated. -/
theorem read_cases (hc : Consistent t s h) {sequence : BitVec 32} {count : Word} {check : Byte}
    (ha : (Request.read sequence count check).Admissible t s)
    (hopen : ¬ (Request.read sequence count check).Unopened s) :
    s.read t (Request.read sequence count check).bytes.tail = s.answer can ∨
      ∃ s' payload, s.read t (Request.read sequence count check).bytes.tail = s'.transmit payload ∧
        payload.length % xmodemBlockSize = 0 ∧
        Consistent t s' (if (h.reads.getLast?).map Prod.fst = some sequence then h
          else { h with reads := h.reads ++ [(sequence, payload)] }) := by
  have hfile : s.fileNumber ≠ none := hopen
  rw [read_eq]
  split
  · exact .inl rfl
  cases hs : s.sequence with
  | none =>
    have hnone : h.reads.getLast? = none := by
      rw [← Option.map_eq_none_iff, ← hc.sequence_eq, hs]
    have hpending : s.pendingPayload = none := by rw [hc.payload_eq, hnone, Option.map_none]
    have hcommit : s.commit = s := by
      have hlen : (s.pendingPayload.getD []).length = 0 := by rw [hpending]; rfl
      rw [TapeServer.commit, hlen]
      rfl
    have hfirst : ∀ current, s.sequence = some current → sequence = current + 1 := by
      intro current hcur
      rw [hs] at hcur
      cases hcur
    obtain ⟨hnext, hlen⟩ := hc.begin hfile ha hfirst
    rw [hcommit] at hnext hlen
    refine .inr ⟨_, _, rfl, hlen, ?_⟩
    rw [if_neg (by simp [hnone])]
    exact hnext
  | some current =>
    have hlast : h.reads.getLast?.map Prod.fst = some current := hc.sequence_eq.symm.trans hs
    simp only [hlast, Option.some.injEq]
    split
    · rename_i heq
      subst heq
      split
      · exact .inl rfl
      · obtain ⟨r, hr, -⟩ := Option.map_eq_some_iff.mp hlast
        have hpending : s.pendingPayload = some r.2 := by rw [hc.payload_eq, hr, Option.map_some]
        refine .inr ⟨s, r.2, by rw [hpending, Option.getD_some], hc.blocks r (List.mem_of_getLast? hr), ?_⟩
        rw [if_pos rfl]
        exact hc
    · split
      · rename_i hne hsucc
        have hnext : ∀ c, s.sequence = some c → sequence = c + 1 := by
          intro c hcur
          obtain rfl := Option.some.inj (hs.symm.trans hcur)
          exact hsucc
        obtain ⟨hnext, hlen⟩ := hc.begin hfile ha hnext
        refine .inr ⟨_, _, rfl, hlen, ?_⟩
        rw [if_neg (Ne.symm hne)]
        exact hnext
      · exact .inl rfl

end Consistent

/-- A reply in a transfer changes nothing but what the server waits for. -/
theorem receive_reply (t : Tape) {σ : Session} (hs : σ.sending?.isSome) {b : Byte}
    (hb : b = ack ∨ b = nak) :
    (σ.receive t b).1.server = σ.server ∧
      ((σ.receive t b).1.waiting = .command ∨ (σ.receive t b).1.sending?.isSome) := by
  obtain ⟨s, w⟩ := σ
  have hne : nak ≠ ack := by decide
  cases w with
  | block payload index =>
    obtain rfl | rfl := hb
    · rw [Session.receive]
      simp only [if_true]
      split
      · exact ⟨rfl, .inr rfl⟩
      · exact ⟨rfl, .inr rfl⟩
    · rw [Session.receive]
      simp only [hne, if_false, if_true]
      exact ⟨trivial, .inr rfl⟩
  | eot =>
    obtain rfl | rfl := hb
    · exact ⟨rfl, .inl rfl⟩
    · exact ⟨rfl, .inr rfl⟩
  | command => cases hs
  | request kind got => cases hs
  | legacyReply payload => cases hs
  | stopped => cases hs

/-- A consistent server that waits for a request or is in a transfer. -/
structure Answered (t : Tape) (σ : Session) (h : History) : Prop where
  consistent : Consistent t σ.server h
  waiting : σ.waiting = .command ∨ σ.sending?.isSome

namespace Answered

variable {t : Tape} {s : TapeServer} {h : History}

theorem transmit (hc : Consistent t s h) {payload : List Byte}
    (hlen : payload.length % xmodemBlockSize = 0) :
    Answered t (s.transmit payload).1 h ∧ (s.transmit payload).1.sending? = some payload := by
  rw [TapeServer.transmit, if_neg (not_not.mpr hlen)]
  split
  · rename_i hnil
    subst hnil
    exact ⟨⟨hc, .inr rfl⟩, rfl⟩
  · exact ⟨⟨hc, .inr rfl⟩, rfl⟩

theorem openFile (hc : Consistent t s h) {m0 m1 version file check : Byte}
    (ha : (Request.openFile m0 m1 version file check).Admissible t s) :
    Answered t (s.openFile t [m0, m1, version, file, check]).1
      (h.record (s.openFile t [m0, m1, version, file, check]).1
        (s.openFile t [m0, m1, version, file, check]).2
        (.openFile m0 m1 version file check)) := by
  obtain ⟨hv, h2, hdata⟩ := ha
  rw [TapeServer.openFile]
  simp only
  split
  · have hne : [can] ≠ [ack] := by decide
    rw [History.record, TapeServer.answer]
    simp only [hne, if_false]
    exact ⟨hc, .inl rfl⟩
  · rename_i hok
    simp only [not_or] at hok
    obtain ⟨data, hsome⟩ := Option.ne_none_iff_exists'.mp hok.2.2.2
    rw [History.record, TapeServer.answer]
    simp only [if_true]
    exact ⟨Consistent.select s h2 hv hsome (hdata data hsome), .inl rfl⟩

theorem space (hc : Consistent t s h) {count check : Byte}
    (ha : (Request.space count check).Admissible t s) :
    Answered t (s.space t [count, check]).1
      (h.record (s.space t [count, check]).1 (s.space t [count, check]).2 (.space count check)) := by
  have hne : [can] ≠ [ack] := by decide
  rw [TapeServer.space]
  cases hf : s.fileNumber with
  | none =>
    simp only [History.record, TapeServer.answer, hne, if_false]
    exact ⟨hc, .inl rfl⟩
  | some n =>
    simp only
    split
    · simp only [History.record, TapeServer.answer, hne, if_false]
      exact ⟨hc, .inl rfl⟩
    · split
      · simp only [History.record, TapeServer.answer, hne, if_false]
        exact ⟨hc, .inl rfl⟩
      · rename_i hsome
        obtain ⟨data, hsome⟩ := Option.ne_none_iff_exists'.mp hsome
        obtain ⟨h2, hv, -⟩ := hc.opened n hf
        have hfile : h.file = some n := hc.file_eq.symm.trans hf
        simp only [History.record, TapeServer.answer, if_true, hfile, Option.map_some]
        exact ⟨Consistent.select s (by omega) hv hsome (ha n hf data hsome), .inl rfl⟩

theorem close (t : Tape) (s : TapeServer) : Answered t ⟨s.close, .command⟩ {} :=
  ⟨Consistent.empty s.protocolVersion, .inl rfl⟩

theorem read (hc : Consistent t s h) {sequence : BitVec 32} {count : Word} {check : Byte}
    (ha : (Request.read sequence count check).Admissible t s)
    (hopen : ¬ (Request.read sequence count check).Unopened s) :
    Answered t (s.read t (Request.read sequence count check).bytes.tail).1
      (h.record (s.read t (Request.read sequence count check).bytes.tail).1
        (s.read t (Request.read sequence count check).bytes.tail).2 (.read sequence count check)) := by
  obtain heq | ⟨s', payload, heq, hlen, hc'⟩ := hc.read_cases ha hopen
  · rw [heq]
    exact ⟨hc, .inl rfl⟩
  · obtain ⟨hans, hsend⟩ := transmit hc' hlen
    rw [heq, History.record, hsend]
    exact hans

theorem reply {σ : Session} (ha : Answered t σ h) (hs : σ.sending?.isSome) {b : Byte}
    (hb : b = ack ∨ b = nak) : Answered t (σ.receive t b).1 h := by
  obtain ⟨hserver, hwaiting⟩ := receive_reply t hs hb
  exact ⟨hserver ▸ ha.consistent, hwaiting⟩

theorem request {σ : Session} (ha : Answered t σ h) (hw : σ.waiting = .command) (req : Request)
    (hadm : req.Admissible t σ.server) (hopen : ¬ req.Unopened σ.server) :
    Answered t (σ.feed t req.bytes).1
      (h.record (σ.feed t req.bytes).1 (σ.feed t req.bytes).2 req) := by
  obtain ⟨s, w⟩ := σ
  obtain rfl : w = .command := hw
  have hc := ha.consistent
  cases req with
  | openFile m0 m1 version file check =>
    rw [feed_openFile]
    exact openFile hc hadm
  | read sequence count check =>
    have hfile : s.fileNumber ≠ none := hopen
    rw [feed_read t hfile (hc.not_legacy hfile)]
    exact read hc hadm hopen
  | space count check =>
    rw [feed_space]
    exact space hc hadm
  | close =>
    rw [feed_close]
    exact close t s

end Answered

theorem Reach.answered {t : Tape} {σ : Session} {h : History} (hr : Reach t σ h) :
    Answered t σ h := by
  induction hr with
  | start => exact ⟨Consistent.empty 0, .inl rfl⟩
  | request req _ hw hadm hopen ih => exact ih.request hw req hadm hopen
  | reply b _ hs hb ih => exact ih.reply hs hb

/-- Replies never change the fields of a server that waits for a request or is in a transfer. -/
theorem server_feed_replies (t : Tape) {σ : Session} (hw : σ.waiting = .command ∨ σ.sending?.isSome)
    (replies : List Byte) (hr : ∀ b ∈ replies, b = ack ∨ b = nak) :
    (σ.feed t replies).1.server = σ.server := by
  induction replies generalizing σ with
  | nil => rfl
  | cons b replies ih =>
    have hb := hr b List.mem_cons_self
    have hstep : (σ.receive t b).1.server = σ.server ∧
        ((σ.receive t b).1.waiting = .command ∨ (σ.receive t b).1.sending?.isSome) := by
      obtain hc | hs := hw
      · obtain ⟨s, w⟩ := σ
        obtain rfl : w = .command := hc
        have hidle : Session.receive t ⟨s, .command⟩ b = (⟨s, .command⟩, []) := by
          rw [Session.receive]
          obtain rfl | rfl := hb
          · rfl
          · rfl
        rw [hidle]
        exact ⟨rfl, .inl rfl⟩
      · exact receive_reply t hs hb
    rw [Session.feed]
    exact (ih hstep.2 fun b hb ↦ hr b (List.mem_cons_of_mem _ hb)).trans hstep.1

/-- A request that is answered with `CAN` leaves everything as it was. -/
def CancelKeeps (t : Tape) (σ : Session) (req : Request) : Prop :=
  (σ.feed t req.bytes).2.head? = some can → (σ.feed t req.bytes).1 = σ

/-- Exactly-once delivery in a state with the given history. -/
structure ExactlyOnce (t : Tape) (σ : Session) (h : History) : Prop where
  bounded : σ.server.position ≤ (σ.server.source t).length
  pending : ∀ p, σ.server.pendingPayload = some p → ∃ count, σ.server.pendingCount = some count ∧
    p = ((σ.server.source t).drop σ.server.position).take count
  repeated : σ.waiting = .command → ∀ (sequence : BitVec 32) (count : Word),
    σ.server.sequence = some sequence → σ.server.pendingCount = some count.toNat →
    ∃ p, σ.server.pendingPayload = some p ∧
      σ.feed t (Request.read sequence count (Request.readCheck sequence count)).bytes =
        σ.server.transmit p ∧
      ∀ replies, (∀ b ∈ replies, b = ack ∨ b = nak) →
        ((σ.server.transmit p).1.feed t replies).1.server = σ.server
  selected : σ.server.fileNumber = h.file
  in_order : h.delivered <+: σ.server.source t
  successive : (h.reads.map Prod.fst).IsChain fun a b ↦ b = a + 1
  canceled : σ.waiting = .command → ∀ req : Request, req.Admissible t σ.server →
    ¬ req.Unopened σ.server → CancelKeeps t σ req

theorem transmit_head (s : TapeServer) {payload : List Byte}
    (hlen : payload.length % xmodemBlockSize = 0) :
    (s.transmit payload).2.head? ≠ some can := by
  rw [TapeServer.transmit, if_neg (not_not.mpr hlen)]
  split
  · exact fun h ↦ absurd (Option.some.inj h) (by decide)
  · exact fun h ↦ absurd (Option.some.inj h) (by decide)

theorem cancelKeeps {t : Tape} {s : TapeServer} {h : History} (hc : Consistent t s h)
    (req : Request) (hadm : req.Admissible t s) (hopen : ¬ req.Unopened s) :
    CancelKeeps t ⟨s, .command⟩ req := by
  have hack : [ack].head? ≠ some can := by decide
  cases req with
  | openFile m0 m1 version file check =>
    rw [CancelKeeps, feed_openFile, TapeServer.openFile]
    simp only
    split
    · exact fun _ ↦ rfl
    · exact fun hhead ↦ absurd hhead hack
  | space count check =>
    rw [CancelKeeps, feed_space, TapeServer.space]
    cases s.fileNumber with
    | none => exact fun _ ↦ rfl
    | some n =>
      simp only
      split
      · exact fun _ ↦ rfl
      · split
        · exact fun _ ↦ rfl
        · exact fun hhead ↦ absurd hhead hack
  | close =>
    rw [CancelKeeps, feed_close]
    intro hhead
    cases hhead
  | read sequence count check =>
    have hfile : s.fileNumber ≠ none := hopen
    rw [CancelKeeps, feed_read t hfile (hc.not_legacy hfile)]
    obtain heq | ⟨s', payload, heq, hlen, -⟩ := hc.read_cases hadm hopen
    · rw [heq]
      exact fun _ ↦ rfl
    · rw [heq]
      exact fun hhead ↦ absurd hhead (transmit_head s' hlen)

def oneBlockTape : Tape where
  files := [[], [], List.replicate 128 7]

/-- The request that opens file 2. -/
def openTwo : Request := .openFile charS char8 xmodemVersion 2 0x6B

/-- A tape with a special file of number 105. -/
def specialTape : Tape where
  files := []
  specialFiles := Dict.set ∅ 0x69 (List.replicate 128 0)

/-- A read whose sequence number and count spell an open request for file 105. -/
def disguisedRead : Request := .read 0x01533803 0x6900 0

end S8000.Serial
