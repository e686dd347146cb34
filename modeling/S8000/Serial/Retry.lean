import S8000.Serial.StrategyCall

namespace S8000.Serial.Zeus

open Foundation Foundation.Bytes

variable {t : Tape} {σ : Session} {m m' : Cpu} {l : Link}

/-- A call that has returned, after whatever happened on the line, while the server still waits
for the acknowledgement of a block or of `EOT`. -/
structure Abandoned (t : Tape) (σ : Session) (m : Cpu) (l : Link) : Prop where
  ready : Ready t σ
  run : (call t σ m).Run t (fun _ _ ↦ True) l
  returned : l.returned ≠ none
  sending : l.session.sending?.isSome

/-- The same call again: the server sends the pending payload from its first block and goes on
serving. -/
structure Resumes (t : Tape) (σ : Session) (m : Cpu) : Prop where
  answer : ∃ payload, σ.server.pendingPayload = some payload ∧
    (call t σ m).sent = if payload = [] then [Serial.eot] else blockPacket payload 0
  serving : (call t σ m).session.waiting ≠ .stopped

/-- In the middle of a transfer the first byte of a request stops the server. -/
theorem feed_charR_stops (hs : σ.sending?.isSome) (bytes : List Byte) :
    σ.feed t (charR :: bytes) = (⟨σ.server, .stopped⟩, []) := by
  have hne : charR ≠ ack ∧ charR ≠ nak := by decide
  have hstopped : ∀ bytes, Session.feed t ⟨σ.server, .stopped⟩ bytes = (⟨σ.server, .stopped⟩, []) := by
    intro bytes
    induction bytes with
    | nil => rfl
    | cons b bytes ih => simp only [Session.feed, Session.receive, ih, List.append_nil]
  have hreceive : σ.receive t charR = (⟨σ.server, .stopped⟩, []) := by
    obtain ⟨s, w⟩ := σ
    cases w with
    | block payload index =>
      simp only [Session.receive, if_neg hne.1, if_neg hne.2]
    | eot => simp only [Session.receive, if_neg hne.1, if_neg hne.2]
    | command => cases hs
    | request kind got => cases hs
    | legacyReply payload => cases hs
    | stopped => cases hs
  simp only [Session.feed, hreceive, hstopped, List.append_nil]

theorem call_stops (hs : σ.sending?.isSome) (h6 : m.r6 = 1) :
    (call t σ m).sent = [] ∧ (call t σ m).session.waiting = .stopped := by
  have hstop : σ.feed t (request m).bytes = (⟨σ.server, .stopped⟩, []) := feed_charR_stops hs _
  rw [call_read h6, hstop]
  exact ⟨rfl, rfl⟩

/-- A read that asks for the same. -/
structure SameCall (m m' : Cpu) : Prop where
  read : m'.r6 = 1
  request : request m' = request m

/-- Nothing arrives. -/
def silence : Fate := ⟨[], false⟩

/-- A line that stays silent makes the driver give up, whatever block it waits for. -/
theorem silence_abandons {B : Buffer} {payload : List Byte} {i a : ℕ} {l₀ : Link}
    (h : Sending B l payload i a) (hs : l.sent = blockPacket payload i) (hret : l.returned = none)
    (hrh3 : (high l.cpu.r3).toNat ≤ 10) (hrun : l₀.Run t (fun _ _ ↦ True) l) :
    ∃ l', l₀.Run t (fun _ _ ↦ True) l' ∧ l'.returned = some 0xFFFF ∧
      l'.session.waiting = .block payload i := by
  have hsilent : ∀ l : Link, Sending B l payload i a → l.sent = blockPacket payload i →
      if 10 < (high l.cpu.r3 + 1).toNat then
        (l.turn t silence).returned = some 0xFFFF ∧ (l.turn t silence).session = l.session
      else
        (l.turn t silence).returned = none ∧ (l.turn t silence).sent = blockPacket payload i ∧
          Sending B (l.turn t silence) payload i a ∧
          high (l.turn t silence).cpu.r3 = high l.cpu.r3 + 1 := by
    intro l h hs
    have hrx : (l.hearing silence).rx = [] := h.hearing_rx
    have hfair : l.Fair t silence := by
      refine ⟨.inr ⟨?_, ?_⟩, fun hl ↦ by cases hl⟩
      · rw [Link.Data, hs]
        rfl
      · exact .cut (d := []) List.nil_prefix (by rw [hs]; exact Nat.succ_pos _)
    obtain ⟨m', hbad, hstill, hrest⟩ := Cpu.response_silence hrx
    have hturn := turn_bad hbad hstill.toFrame (by simp [hrest]) hfair
    split at hturn
    · rwa [if_pos (by assumption)]
    · rw [if_neg (by assumption)]
      obtain ⟨hret, hrx', hses, hsent, hrh3, hkept⟩ := hturn
      rw [feed_nak_block h.waiting] at hses hsent
      exact ⟨hret, hsent, ⟨hses ▸ h.waiting, hses ▸ h.pending, h.length, h.whole, h.index,
        (h.filled.hearing.kept (.of_still hstill)).kept hkept, hrx'⟩, hrh3⟩
  -- Induction on the bad responses that are left.
  induction hleft : 10 - (high l.cpu.r3).toNat generalizing l with
  | zero =>
    have hturn := hsilent l h hs
    rw [if_pos (by rw [BitVec.toNat_add]; simp; omega)] at hturn
    exact ⟨_, .turn hrun hret trivial, hturn.1, hturn.2 ▸ h.waiting⟩
  | succ left ih =>
    have hturn := hsilent l h hs
    have hnext : (high l.cpu.r3 + 1).toNat = (high l.cpu.r3).toNat + 1 := by
      rw [BitVec.toNat_add]
      simp
      omega
    rw [if_neg (by omega)] at hturn
    obtain ⟨hret', hs', h', hrh3'⟩ := hturn
    rw [← hrh3'] at hnext
    exact ih h' hs' hret' (by omega) (.turn hrun hret trivial) (by omega)

theorem zeroCall_abandoned :
    ∃ l, Abandoned zeroTape zeroSession zeroCall l ∧ l.returned = some 0xFFFF := by
  have hrh3 : high (call zeroTape zeroSession zeroCall).cpu.r3 = 0 := high_word _ _
  obtain ⟨l, hrun, hret, hw⟩ := silence_abandons zeroCall_sending zeroCall_sent rfl
    (by rw [hrh3]; decide) .start
  refine ⟨l, ⟨zeroSession_ready, hrun, by simp [hret], ?_⟩, hret⟩
  rw [Session.sending?, hw]
  rfl

end S8000.Serial.Zeus
