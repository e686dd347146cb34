import S8000.Serial.Transfer
import S8000.Serial.Pending

namespace S8000.Serial.Zeus

open Foundation Foundation.Bytes

section Calls

variable {t : Tape} {σ : Session} {m : Cpu}

/-- A call to a server with an open file. -/
structure Ready (t : Tape) (σ : Session) : Prop where
  reached : ∃ earlier, (Session.feed t {} earlier).1 = σ
  waiting : σ.waiting = .command
  file : σ.server.fileNumber ≠ none
  version : ¬ σ.server.legacy

theorem Ready.bounded (h : Ready t σ) : σ.server.Bounded := by
  obtain ⟨earlier, rfl⟩ := h.reached
  exact TapeServer.Bounded.feed (TapeServer.Bounded.of_none rfl) earlier

theorem call_read (h6 : m.r6 = 1) :
    call t σ m =
      { session := (σ.feed t (request m).bytes).1
        cpu := strategyBody { m with rx := [], tx := [] }
        sent := (σ.feed t (request m).bytes).2 } := by
  have hstrategy : ctStrategy { m with rx := [], tx := [] } =
      (none, strategyBody { m with rx := [], tx := [] }) := if_pos h6
  rw [call, hstrategy, strategyBody_tx]

theorem call_settled (h : Ready t σ) : Settled (buffer m) (call t σ m) := by
  by_cases h6 : m.r6 = 1
  · obtain ⟨s, w⟩ := σ
    obtain rfl : w = .command := h.waiting
    obtain ⟨σ', out, hfeed⟩ : ∃ σ' out,
        Session.feed t ⟨s, .command⟩ (request m).bytes = (σ', out) := ⟨_, _, rfl⟩
    have hcall := call_read (t := t) (σ := ⟨s, .command⟩) h6
    rw [hfeed] at hcall
    rw [hcall]
    refine .waiting rfl ?_
    rcases TapeServer.feed_read_cases h.bounded h.file h.version _ _ _ hfeed with
      ⟨hw, hout⟩ | ⟨hw, hout⟩ | ⟨payload, hp, hlen, hmod, ⟨hnil, hw, hout⟩ | ⟨hne, hw, hout⟩⟩
    · exact .refused (.inl hw) (.inr hout) rfl
    · exact .refused (.inr hw) (.inl hout) rfl
    · refine .eot payload 0 hw hp hlen ?_ hout (strategyBody_filled m payload) rfl
      rw [hnil]
      rfl
    · have hpos : 0 * 128 < payload.length := by
        rw [Nat.zero_mul]
        exact List.length_pos_of_ne_nil hne
      exact .block payload 0 0
        ⟨hw, hp, hlen, hmod, hpos, strategyBody_filled m payload, rfl⟩ (.inl rfl) (.inl hout)
  · have hcall : (call t σ m).returned = some 0xFFFF := by
      rw [call, ctStrategy, if_neg h6]
      rfl
    exact .failed hcall

/-- The turns that a call survives: fair ones that spare the expected block. -/
def Sound (t : Tape) (l : Link) (f : Fate) : Prop := l.Fair t f ∧ l.Spared f

theorem settled_of_run (h : Ready t σ) (hapart : Apart (buffer m)) {l : Link}
    (hrun : Link.Run t (Sound t) (call t σ m) l) : Settled (buffer m) l := by
  induction hrun with
  | start => exact call_settled h
  | turn hrun hret hsound ih =>
    cases ih with
    | waiting _ hp => exact hp.turn hapart hsound.1 hsound.2
    | failed hret' =>
      rw [hret] at hret'
      cases hret'
    | done n hret' _ =>
      rw [hret] at hret'
      cases hret'

/-- Every run of a call in which each damaged transmission of the expected block is found damaged
in its header, to a buffer apart from the count in the `iob`. -/
theorem strategy_delivers (h : Ready t σ) (hapart : Apart (buffer m)) {l : Link}
    (hrun : Link.Run t (Sound t) (call t σ m) l) {n : Word} (hret : l.returned = some n)
    (hn : n ≠ 0xFFFF) : Delivered (buffer m) l n := by
  cases settled_of_run h hapart hrun with
  | waiting hret' _ =>
    rw [hret] at hret'
    cases hret'
  | failed hret' =>
    rw [hret] at hret'
    exact absurd (Option.some.inj hret') hn
  | done n' hret' hd =>
    rw [hret] at hret'
    obtain rfl := Option.some.inj hret'
    exact hd

end Calls

section Undisturbed

variable {t : Tape} {B : Buffer} {l₀ l : Link} {payload : List Byte}

/-- The transmission and the answer arrive. -/
def Link.heard (l : Link) : Fate := ⟨l.sent.map some, false⟩

theorem Link.heard_fair (l : Link) : l.Fair t l.heard := ⟨.inl rfl, fun h ↦ by cases h⟩

/-- A call that nothing disturbs any more returns the length of the payload and has put it into
the buffer. -/
theorem undisturbed_returns {ok : Link → Fate → Prop} (hok : ∀ l, ok l l.heard) (hapart : Apart B)
    {i : ℕ} (hs : l.sent = blockPacket payload i) (h : Sending B l payload i i)
    (hret : l.returned = none) (hrun : l₀.Run t ok l) :
    ∃ l', l₀.Run t ok l' ∧ l'.returned = some (BitVec.ofNat 16 payload.length) ∧
      l'.cpu.mem = B.mem.storeList B.address payload := by
  -- Induction on the blocks that are left.
  induction hleft : payload.length / 128 - i generalizing l i with
  | zero =>
    have hi := h.index
    have hmod := h.whole
    omega
  | succ left ih =>
    have hev : l.heard.events = (blockPacket payload i).map some := congrArg (List.map some) hs
    obtain ⟨hret', ⟨hs', h'⟩ | ⟨hs', hw, hp, hrx, hlen, hf⟩⟩ :=
      h.turn_heard (t := t) (.inl rfl) hev rfl
    · exact ih hs' h' hret' (.turn hrun hret (hok l)) (by omega)
    · set l₁ := l.turn t l.heard with hl₁
      have hrx' : (l₁.hearing l₁.heard).rx = [some Serial.eot] := by
        rw [Link.hearing, hrx, Link.heard, hs']
        rfl
      obtain ⟨hret₂, hmem, -⟩ := turn_eot (t := t) hw hp h.length hlen hf hrx' rfl hapart
      exact ⟨_, .turn (.turn hrun hret (hok l)) hret' (hok l₁), hret₂, hmem⟩

/-- The buffer of a call that goes on behind bytes it has stored for nothing. -/
def Buffer.moved (B : Buffer) (data : List Byte) : Buffer where
  iob := B.iob
  address := B.address + BitVec.ofNat 16 data.length
  mem := B.mem.storeList B.address data

theorem Buffer.count_moved (hapart : Apart B) {data : List Byte}
    (hlen : data.length ≤ B.count.toNat) : (B.moved data).count = B.count :=
  Memory.readWord_congr (Memory.storeList_outside B.mem (hlen.trans hapart.1))
    (Memory.storeList_outside B.mem (hlen.trans hapart.2))

/-- The data bytes of a first block that is rejected behind its header stay counted in `r5`. -/
theorem Sending.moved (h : Sending B l payload 0 0) (hapart : Apart B) {f : Fate}
    {body : List Byte} {rest : List (Option Byte)}
    (hev : f.events = some soh :: some 1 :: some (0xFF ^^^ 1) :: (body.map some ++ rest))
    (hbroken : Broken (blockOf payload 0) body rest) (hfair : l.Fair t f)
    (hrh3 : (high l.cpu.r3 + 1).toNat ≤ 10) :
    (l.turn t f).returned = none ∧ (l.turn t f).sent = blockPacket payload 0 ∧
      Sending (B.moved (body.take 128)) (l.turn t f) payload 0 0 := by
  obtain ⟨hn, h4⟩ := h.expected (f := f) rfl
  obtain ⟨m', hbad, hframe, hnone, hmem, hr5⟩ :=
    Cpu.response_broken h.length_block hbroken (h.hearing_rx.trans hev) hn h4
  have hturn := turn_bad hbad hframe hnone hfair
  rw [if_neg (by omega)] at hturn
  obtain ⟨hret, hrx, hses, hsent, -, hkept⟩ := hturn
  rw [feed_nak_block h.waiting] at hses hsent
  have hcount : (B.moved (body.take 128)).count = B.count := by
    have hi := h.index
    have hmod := h.whole
    apply Buffer.count_moved hapart
    rw [List.length_take]
    exact (Nat.min_le_left _ _).trans (le_trans (by omega) h.length)
  have hf : Filled B payload 0 (l.hearing f) := h.filled.hearing
  have hr5₀ : (l.hearing f).r5 = B.address := hf.r5.trans (BitVec.add_zero _)
  refine ⟨hret, hsent, hses ▸ h.waiting, hses ▸ h.pending, hcount ▸ h.length, h.whole, h.index,
    ⟨?_, ?_, ?_, ?_, ?_⟩, hrx⟩
  · exact hkept.r7.trans (hframe.r7.trans hf.r7)
  · exact hkept.rh2.trans (hframe.rh2.trans hf.rh2)
  · rw [hcount]
    exact hkept.r4.trans (hframe.r4.trans hf.r4)
  · rw [hkept.r5, hr5, hr5₀]
    exact (BitVec.add_zero _).symm
  · rw [hkept.mem, hmem, hr5₀, hf.mem]
    rfl

end Undisturbed

section Example

def zeroBlock : List Byte := List.replicate 128 0

def zeroTape : Tape where
  files := [[], [], zeroBlock]

/-- File 2 has been opened. -/
def zeroSession : Session := (Session.feed zeroTape {} [soh, charS, char8, xmodemVersion, 2, 0x6B]).1

/-- A call for 128 bytes at 0x2000, with an `iob` at 0x1000. -/
def zeroCall : Cpu where
  r6 := 1
  r7 := 0x1000
  mem := Memory.storeList (fun _ ↦ 0xFF) 0x105E [0, 0, 0, 0, 0x20, 0, 0, 0x80]

theorem zeroSession_ready : Ready zeroTape zeroSession where
  reached := ⟨_, rfl⟩
  waiting := rfl
  file := Option.some_ne_none 2
  version := by decide

theorem zeroCall_apart : Apart (buffer zeroCall) := ⟨by decide, by decide⟩

set_option maxRecDepth 3000 in
theorem zeroCall_sending :
    Sending (buffer zeroCall) (call zeroTape zeroSession zeroCall) zeroBlock 0 0 where
  waiting := rfl
  pending := rfl
  length := by decide
  whole := rfl
  index := by decide
  filled := strategyBody_filled zeroCall zeroBlock
  rx := rfl

set_option maxRecDepth 3000 in
theorem zeroCall_sent : (call zeroTape zeroSession zeroCall).sent = blockPacket zeroBlock 0 := rfl

theorem strategy_delivers_zeroBlock :
    ∃ l, Link.Run zeroTape (Sound zeroTape) (call zeroTape zeroSession zeroCall) l ∧
      l.returned = some 128 ∧ Delivered (buffer zeroCall) l 128 := by
  have hheard : ∀ l : Link, Sound zeroTape l l.heard := fun l ↦ ⟨l.heard_fair, .inl rfl⟩
  obtain ⟨l, hrun, hret, -⟩ :=
    undisturbed_returns hheard zeroCall_apart zeroCall_sent zeroCall_sending rfl .start
  exact ⟨l, hrun, hret,
    strategy_delivers zeroSession_ready zeroCall_apart hrun hret (by decide)⟩

/-- The block with a wrong last byte. -/
def wrongCrc : Fate where
  events := ([soh, 1, 0xFE] ++ (zeroBlock ++ [0, 1])).map some
  lost := false

theorem crc_zeroBlock : crc16Xmodem zeroBlock = 0 :=
  (Remainder.remainder_zeros _ _ 128).trans (Remainder.iterate_shift_zero _ _)

theorem length_zeroBlock : zeroBlock.length = 128 := List.length_replicate

theorem take_zeroBlock : (zeroBlock ++ [0, 1]).take 128 = zeroBlock :=
  List.take_left' length_zeroBlock

theorem wrongCrc_broken : Broken zeroBlock (zeroBlock ++ [0, 1]) [] := by
  refine .crc rfl ?_
  rw [take_zeroBlock, crcBytes, crc_zeroBlock]
  decide

theorem wrongCrc_fair :
    (call zeroTape zeroSession zeroCall).Fair zeroTape wrongCrc := by
  refine ⟨.inr ⟨?_, ?_⟩, fun h ↦ by cases h⟩
  · rw [Link.Data, zeroCall_sent]
    rfl
  · rw [zeroCall_sent]
    have hlen : ([soh, 1, 0xFE] ++ (zeroBlock ++ [0, 1])).length = (blockPacket zeroBlock 0).length := by
      simp [blockPacket, xmodemPacket, blockOf, xmodemBlockSize, zeroBlock]
    have hhead : ([soh, 1, 0xFE] ++ (zeroBlock ++ [0, 1])).take 3 = (blockPacket zeroBlock 0).take 3 := by
      simp [blockPacket, xmodemPacket]
    refine Damaged.crc hhead hlen ?_
    have htake : (([soh, 1, 0xFE] ++ (zeroBlock ++ [0, 1])).drop 3).take 128 = zeroBlock :=
      take_zeroBlock
    rw [htake, crcBytes, crc_zeroBlock]
    decide

theorem zeroCall_moved_apart : Apart ((buffer zeroCall).moved zeroBlock) := by
  have hlen : zeroBlock.length ≤ (buffer zeroCall).count.toNat := by
    rw [length_zeroBlock]
    decide
  rw [Apart, Buffer.count_moved zeroCall_apart hlen, Buffer.moved, length_zeroBlock]
  exact ⟨by decide, by decide⟩

/-- The repetition of the rejected block lands behind the buffer. -/
theorem wrongCrc_overruns :
    ∃ l, Link.Run zeroTape (Link.Fair zeroTape) (call zeroTape zeroSession zeroCall) l ∧
      l.returned = some 128 ∧ ¬ Delivered (buffer zeroCall) l 128 := by
  have hrh3 : high (call zeroTape zeroSession zeroCall).cpu.r3 = 0 := high_word _ _
  obtain ⟨hret, hsent, hsending⟩ := zeroCall_sending.moved zeroCall_apart
    (by rw [wrongCrc, List.append_nil]; rfl) wrongCrc_broken wrongCrc_fair
    (by rw [hrh3]; decide)
  rw [take_zeroBlock] at hsending
  obtain ⟨l, hrun, hret', hmem⟩ := undisturbed_returns (fun l ↦ l.heard_fair) zeroCall_moved_apart
    hsent hsending hret (.turn .start rfl wrongCrc_fair)
  refine ⟨l, hrun, hret', fun hd ↦ ?_⟩
  have hlen := length_zeroBlock
  have haddr : ((buffer zeroCall).moved zeroBlock).address + BitVec.ofNat 16 0 = 0x2080 := by
    rw [Buffer.moved, length_zeroBlock]
    decide
  have hbehind : l.cpu.mem 0x2080 = 0 := by
    rw [hmem, ← haddr]
    exact Memory.storeList_add _ _ _ (by omega) (by omega)
  have hkept := hd.outside 0x2080 (by decide)
  rw [hbehind] at hkept
  exact absurd hkept (by decide)

end Example

end S8000.Serial.Zeus
