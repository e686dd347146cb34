import S8000.Serial.Strategy

namespace S8000.Serial.Zeus

open Foundation Foundation.Bytes

/-- Where a call puts what it reads, and the memory it finds. -/
structure Buffer where
  iob : Word
  address : Word
  mem : Memory

def Buffer.count (B : Buffer) : Word := B.mem.readWord (B.iob + iCc)

def buffer (m : Cpu) : Buffer where
  iob := m.r7
  address := m.mem.readWord (m.r7 + iMa)
  mem := m.mem

/-- The read request of a call. -/
def request (m : Cpu) : Request :=
  let sequence := m.mem.readWord (m.r7 + iOffset) ++ m.mem.readWord (m.r7 + (iOffset + 2))
  .read sequence (buffer m).count (Request.readCheck sequence (buffer m).count)

/-- `a` blocks of a payload have been accepted. -/
structure Filled (B : Buffer) (payload : List Byte) (a : ℕ) (m : Cpu) : Prop where
  r7 : m.r7 = B.iob
  rh2 : high m.r2 = BitVec.ofNat 8 (a + 1)
  r4 : m.r4 = B.count - BitVec.ofNat 16 (128 * a)
  r5 : m.r5 = B.address + BitVec.ofNat 16 (128 * a)
  mem : m.mem = B.mem.storeList B.address (payload.take (128 * a))

section Rounds

variable {B : Buffer} {m m' : Cpu} {payload : List Byte} {a : ℕ}

/-- What matters to a transfer has not changed. -/
structure Kept (m m' : Cpu) : Prop where
  r4 : m'.r4 = m.r4
  r5 : m'.r5 = m.r5
  r7 : m'.r7 = m.r7
  rh2 : high m'.r2 = high m.r2
  mem : m'.mem = m.mem

theorem Kept.of_still (h : Cpu.Still m m') : Kept m m' := ⟨h.r4, h.r5, h.r7, h.rh2, h.mem⟩

theorem Filled.kept (h : Filled B payload a m) (hk : Kept m m') : Filled B payload a m' where
  r7 := hk.r7.trans h.r7
  rh2 := hk.rh2.trans h.rh2
  r4 := hk.r4.trans h.r4
  r5 := hk.r5.trans h.r5
  mem := hk.mem.trans h.mem

theorem strategyBody_tx (m : Cpu) :
    (strategyBody { m with rx := [], tx := [] }).tx = (request m).bytes := by
  have h1 : m.r7 + iOffset + 1 = m.r7 + (iOffset + 1) := BitVec.add_assoc _ _ _
  have h3 : m.r7 + (iOffset + 2) + 1 = m.r7 + (iOffset + 3) := by
    rw [BitVec.add_assoc]
    rfl
  simp only [strategyBody, putChecked, Cpu.putByte, request, Request.bytes, Request.readCheck,
    Memory.readWord, buffer, Buffer.count, extractLsb'_high, extractLsb'_low, h1, h3, high_word, low_word, xorAll]
  simp

theorem strategyBody_filled (m : Cpu) (payload : List Byte) :
    Filled (buffer m) payload 0 (strategyBody { m with rx := [], tx := [] }) where
  r7 := rfl
  rh2 := high_word _ _
  r4 := (BitVec.sub_zero _).symm
  r5 := (BitVec.add_zero _).symm
  mem := rfl

/-- A bad response too many: the driver gives up. -/
theorem bad_gives_up (h : 10 < (high m.r3 + 1).toNat) :
    (bad m).1 = some 0xFFFF ∧ (bad m).2.tx = m.tx := by
  have h' : 10 < (high (word (high m.r3 + 1) (low m.r3))).toNat := by rwa [high_word]
  rw [bad]
  simp only [if_pos h']
  exact ⟨rfl, rfl⟩

/-- A bad response: the driver drains the line and asks again. -/
theorem bad_asks_again (h : (high m.r3 + 1).toNat ≤ 10) (hnone : none ∉ m.rx) :
    (bad m).1 = none ∧ (bad m).2.rx = [] ∧ (bad m).2.tx = m.tx ++ [nak] ∧
      high (bad m).2.r3 = high m.r3 + 1 ∧ Kept m (bad m).2 := by
  have h' : ¬ 10 < (high (word (high m.r3 + 1) (low m.r3))).toNat := by
    rw [high_word]
    omega
  set m₁ : Cpu := { m with r3 := word (high m.r3 + 1) (low m.r3) } with hm₁
  have hstill := m₁.drain_still
  have hbad : bad m = (none, m₁.drain.putByte nak) := by
    rw [bad]
    simp only [if_neg h', hm₁]
  rw [hbad]
  refine ⟨rfl, m₁.drain_rx hnone, by rw [Cpu.putByte, hstill.tx], ?_, ?_⟩
  · exact hstill.rh3.trans (high_word _ _)
  · exact ⟨hstill.r4, hstill.r5, hstill.r7, (high_word _ _).trans hstill.rh2, hstill.mem⟩

theorem length_blockOf {i : ℕ} (hmod : payload.length % 128 = 0) (hi : i * 128 < payload.length) :
    (blockOf payload i).length = 128 := by
  rw [blockOf, xmodemBlockSize, List.length_take, List.length_drop]
  omega

/-- The expected block has been stored and acknowledged. -/
theorem Filled.next (h : Filled B payload a m) (hmod : payload.length % 128 = 0)
    (ha : a * 128 < payload.length) (hf : Cpu.Frame m m')
    (hmem : m'.mem = m.mem.storeList m.r5 (blockOf payload a)) (hr5 : m'.r5 = m.r5 + 128)
    {m'' : Cpu} (h7 : m''.r7 = m'.r7) (h2 : high m''.r2 = high m'.r2 + 1) (h4 : m''.r4 = m'.r4 - 128)
    (h5 : m''.r5 = m'.r5) (hmem' : m''.mem = m'.mem) : Filled B payload (a + 1) m'' where
  r7 := by rw [h7, hf.r7, h.r7]
  rh2 := by
    rw [h2, hf.rh2, h.rh2]
    exact (BitVec.ofNat_add (a + 1) 1).symm
  r4 := by
    have h128 : BitVec.ofNat 16 (128 * (a + 1)) = BitVec.ofNat 16 (128 * a) + 128 := by
      rw [Nat.mul_succ, BitVec.ofNat_add]
      rfl
    rw [h4, hf.r4, h.r4, h128]
    bv_omega
  r5 := by
    rw [h5, hr5, h.r5, Nat.mul_succ, BitVec.ofNat_add, BitVec.add_assoc]
    rfl
  mem := by
    have htake : (payload.take (128 * a)).length = 128 * a := by
      rw [List.length_take]
      omega
    have hblock : payload.take (128 * (a + 1)) = payload.take (128 * a) ++ blockOf payload a := by
      rw [blockOf, xmodemBlockSize, Nat.mul_succ, Nat.mul_comm a 128, List.take_add]
    rw [hmem', hmem, h.mem, h.r5, hblock, Memory.storeList_append, htake]

end Rounds

/-- What a call leaves behind when it returns `n`. -/
structure Delivered (B : Buffer) (l : Link) (n : Word) : Prop where
  bytes : ∃ payload, l.session.server.pendingPayload = some payload ∧ n.toNat ≤ payload.length ∧
    ∀ i < n.toNat, l.cpu.mem (B.address + BitVec.ofNat 16 i) = payload.getD i 0
  outside : ∀ x : Word, B.count.toNat ≤ (x - B.address).toNat → l.cpu.mem x = B.mem x

/-- The buffer does not cover the count in the `iob`. -/
def Apart (B : Buffer) : Prop :=
  B.count.toNat ≤ (B.iob + iCc - B.address).toNat ∧
    B.count.toNat ≤ (B.iob + iCc + 1 - B.address).toNat

section Turns

variable {t : Tape} {B : Buffer} {l : Link} {f : Fate}

/-- The driver before a round. -/
def Link.hearing (l : Link) (f : Fate) : Cpu := { l.cpu with rx := l.cpu.rx ++ f.events, tx := [] }

theorem Filled.hearing {payload : List Byte} {a : ℕ} (h : Filled B payload a l.cpu) :
    Filled B payload a (l.hearing f) := ⟨h.r7, h.rh2, h.r4, h.r5, h.mem⟩

theorem Link.turn_eq (h : f.lost = false) :
    l.turn t f =
      { session := (l.session.feed t (round (l.hearing f)).2.tx).1
        cpu := (round (l.hearing f)).2
        sent := (l.session.feed t (round (l.hearing f)).2.tx).2
        returned := (round (l.hearing f)).1 } := by
  rw [Link.turn, h]
  rfl

theorem Link.turn_lost (h : f.lost = true) :
    l.turn t f =
      { session := l.session
        cpu := (round (l.hearing f)).2
        sent := []
        returned := (round (l.hearing f)).1 } := by
  rw [Link.turn, h]
  rfl

/-- A reply to a transfer in progress. -/
theorem feed_nak_block {payload : List Byte} {i : ℕ} {σ : Session}
    (hw : σ.waiting = .block payload i) : σ.feed t [nak] = (σ, blockPacket payload i) := by
  have hne : nak ≠ ack := by decide
  simp only [Session.feed, Session.receive, hw, if_neg hne, if_true, List.append_nil]

theorem feed_ack_block {payload : List Byte} {i : ℕ} {σ : Session}
    (hw : σ.waiting = .block payload i) :
    σ.feed t [ack] =
      if (i + 1) * 128 < payload.length then
        ({ σ with waiting := .block payload (i + 1) }, blockPacket payload (i + 1))
      else ({ σ with waiting := .eot }, [Serial.eot]) := by
  simp only [Session.feed, Session.receive, hw, if_true, List.append_nil, xmodemBlockSize,
    Prod.mk.eta]
  rfl

theorem feed_nak_refused {σ : Session} (hw : σ.waiting = .command ∨ σ.waiting = .stopped) :
    σ.feed t [nak] = (σ, []) := by
  have hne : nak ≠ soh ∧ nak ≠ charR ∧ nak ≠ charF ∧ nak ≠ can := by decide
  obtain ⟨s, w⟩ := σ
  rcases hw with rfl | rfl
  · simp only [Session.feed, Session.receive, TapeServer.command, if_neg hne.1, if_neg hne.2.1,
      if_neg hne.2.2.1, if_neg hne.2.2.2, List.append_nil]
  · rfl

/-- A turn whose response is bad. -/
theorem turn_bad {m' : Cpu} (hbad : (l.hearing f).response = (.bad, m'))
    (hframe : Cpu.Frame (l.hearing f) m') (hnone : none ∉ m'.rx) (hfair : l.Fair t f) :
    if 10 < (high l.cpu.r3 + 1).toNat then
      (l.turn t f).returned = some 0xFFFF ∧ (l.turn t f).session = l.session
    else
      (l.turn t f).returned = none ∧ (l.turn t f).cpu.rx = [] ∧
        (l.turn t f).session = (l.session.feed t [nak]).1 ∧
        (l.turn t f).sent = (l.session.feed t [nak]).2 ∧
        high (l.turn t f).cpu.r3 = high l.cpu.r3 + 1 ∧ Kept m' (l.turn t f).cpu := by
  have hround : round (l.hearing f) = bad m' := by rw [round, hbad]
  have hrh3 : high m'.r3 = high l.cpu.r3 := hframe.rh3
  have htx : m'.tx = [] := hframe.tx
  -- A lost answer would have been an acknowledgement.
  have hlost : (bad m').2.tx ≠ [ack] → f.lost = false := by
    intro hne
    by_contra hl
    exact hne (hround ▸ (hfair.lost (by simpa using hl)).2)
  split
  · rename_i h
    obtain ⟨hret, htx'⟩ := bad_gives_up (m := m') (by rwa [hrh3])
    rw [htx] at htx'
    rw [Link.turn_eq (hlost (by simp [htx'])), hround, htx']
    exact ⟨hret, rfl⟩
  · rename_i h
    obtain ⟨hret, hrx, htx', hr3, hkept⟩ := bad_asks_again (by rw [hrh3]; omega) hnone
    rw [htx, List.nil_append] at htx'
    rw [Link.turn_eq (hlost (by rw [htx']; decide)), hround, htx']
    exact ⟨hret, hrx, rfl, rfl, by rw [hr3, hrh3], hkept⟩

section Blocks

variable {payload : List Byte} {i a : ℕ}

/-- The server sends block `i`, and `a` blocks have been accepted. -/
structure Sending (B : Buffer) (l : Link) (payload : List Byte) (i a : ℕ) : Prop where
  waiting : l.session.waiting = .block payload i
  pending : l.session.server.pendingPayload = some payload
  length : payload.length ≤ B.count.toNat
  whole : payload.length % 128 = 0
  index : i * 128 < payload.length
  filled : Filled B payload a l.cpu
  rx : l.cpu.rx = []

namespace Sending

variable (h : Sending B l payload i a)

include h

theorem hearing_rx : (l.hearing f).rx = f.events := by rw [Link.hearing, h.rx, List.nil_append]

theorem length_block : (blockOf payload i).length = 128 := length_blockOf h.whole h.index

/-- Block `i` is the expected one. -/
theorem expected (ha : a = i) :
    BitVec.ofNat 8 (i + 1) = high (l.hearing f).r2 ∧ 128 ≤ (l.hearing f).r4.toNat := by
  subst ha
  have hfilled : Filled B payload a (l.hearing f) := h.filled.hearing
  have hc := B.count.isLt
  have hlen := h.length
  have hi := h.index
  have hmod := h.whole
  refine ⟨hfilled.rh2.symm, ?_⟩
  rw [hfilled.r4, BitVec.toNat_sub, BitVec.toNat_ofNat]
  omega

/-- Block `i` is the one before. -/
theorem repeated (ha : a = i + 1) : BitVec.ofNat 8 (i + 1) + 1 = high (l.hearing f).r2 := by
  subst ha
  have hfilled : Filled B payload (i + 1) (l.hearing f) := h.filled.hearing
  rw [hfilled.rh2]
  exact (BitVec.ofNat_add (i + 1) 1).symm

/-- The block arrives, for the first time or once more. -/
theorem round_intact (ha : a = i ∨ a = i + 1) (hev : f.events = (blockPacket payload i).map some) :
    (round (l.hearing f)).1 = none ∧ (round (l.hearing f)).2.tx = [ack] ∧
      (round (l.hearing f)).2.rx = [] ∧ Filled B payload (i + 1) (round (l.hearing f)).2 := by
  have hfilled : Filled B payload a (l.hearing f) := h.filled.hearing
  have hhear : (l.hearing f).rx =
      (xmodemPacket (BitVec.ofNat 8 (i + 1)) (blockOf payload i)).map some :=
    h.hearing_rx.trans hev
  rcases ha with rfl | rfl
  · obtain ⟨hn, h4⟩ := h.expected (f := f) rfl
    obtain ⟨m', hvalid, hframe, hrest, hmem, hr5⟩ :=
      Cpu.response_new h.length_block hhear hn h4
    rw [round, hvalid]
    exact ⟨rfl, congrArg (· ++ [ack]) hframe.tx, hrest,
      hfilled.next h.whole h.index hframe hmem hr5 rfl (by simp [Cpu.putByte]) rfl rfl rfl⟩
  · obtain ⟨m₁, hstill, hrest, hdup⟩ := Cpu.response_old h.length_block hhear (h.repeated rfl)
    have hsame := hfilled.kept (.of_still hstill)
    rw [round, hdup]
    exact ⟨rfl, congrArg (· ++ [ack]) hstill.tx, hrest,
      ⟨hsame.r7, (high_word _ _).trans hsame.rh2, hsame.r4, hsame.r5, hsame.mem⟩⟩

/-- The acknowledgement arrives: the next block or `EOT`. -/
theorem turn_heard (ha : a = i ∨ a = i + 1) (hev : f.events = (blockPacket payload i).map some)
    (hlost : f.lost = false) :
    (l.turn t f).returned = none ∧
      ((l.turn t f).sent = blockPacket payload (i + 1) ∧
          Sending B (l.turn t f) payload (i + 1) (i + 1) ∨
        (l.turn t f).sent = [Serial.eot] ∧ (l.turn t f).session.waiting = .eot ∧
          (l.turn t f).session.server.pendingPayload = some payload ∧
          (l.turn t f).cpu.rx = [] ∧ 128 * (i + 1) = payload.length ∧
          Filled B payload (i + 1) (l.turn t f).cpu) := by
  obtain ⟨hret, htx, hrx, hf⟩ := h.round_intact ha hev
  rw [Link.turn_eq hlost, htx, feed_ack_block h.waiting]
  refine ⟨hret, ?_⟩
  have hi := h.index
  have hmod := h.whole
  split
  · rename_i hnext
    exact .inl ⟨rfl, rfl, h.pending, h.length, hmod, hnext, hf, hrx⟩
  · exact .inr ⟨rfl, rfl, h.pending, hrx, by omega, hf⟩

theorem turn_unheard (ha : a = i ∨ a = i + 1) (hev : f.events = (blockPacket payload i).map some)
    (hlost : f.lost = true) :
    (l.turn t f).returned = none ∧ (l.turn t f).sent = [] ∧
      Sending B (l.turn t f) payload i (i + 1) := by
  obtain ⟨hret, -, hrx, hf⟩ := h.round_intact ha hev
  rw [Link.turn_lost hlost]
  exact ⟨hret, rfl, h.waiting, h.pending, h.length, h.whole, h.index, hf, hrx⟩

/-- Nothing of the block is kept: it is asked for again, or the driver gives up. -/
theorem turn_repeat {m' : Cpu} (hbad : (l.hearing f).response = (.bad, m'))
    (hstill : Cpu.Still (l.hearing f) m') (hnone : none ∉ m'.rx) (hfair : l.Fair t f) :
    (l.turn t f).returned = some 0xFFFF ∨
      ((l.turn t f).returned = none ∧ (l.turn t f).sent = blockPacket payload i ∧
        Sending B (l.turn t f) payload i a) := by
  have hturn := turn_bad hbad hstill.toFrame hnone hfair
  split at hturn
  · exact .inl hturn.1
  · obtain ⟨hret, hrx, hses, hsent, -, hkept⟩ := hturn
    rw [feed_nak_block h.waiting] at hses hsent
    exact .inr ⟨hret, hsent, hses ▸ h.waiting, hses ▸ h.pending, h.length, h.whole, h.index,
      (h.filled.hearing.kept (.of_still hstill)).kept hkept, hrx⟩

/-- A damaged transmission that is found out in time. -/
theorem turn_damaged (ha : a = i ∨ a = i + 1) (hs : l.sent = blockPacket payload i)
    (hdamaged : f.events ≠ l.sent.map some) (hfair : l.Fair t f) (hspared : l.Spared f) :
    (l.turn t f).returned = some 0xFFFF ∨
      ((l.turn t f).returned = none ∧ (l.turn t f).sent = blockPacket payload i ∧
        Sending B (l.turn t f) payload i a) := by
  have hhear : Damaged (xmodemPacket (BitVec.ofNat 8 (i + 1)) (blockOf payload i))
      (l.hearing f).rx := by
    rw [h.hearing_rx, ← blockPacket, ← hs]
    exact (hfair.events.resolve_left hdamaged).2
  obtain ⟨m', data, hbad, hframe, hnone, hmem, hr5, -, hdata⟩ :=
    Cpu.response_damaged h.length_block hhear (ha.imp h.expected h.repeated)
  have hnil : data = [] := by
    apply hdata
    rcases ha with ha | ha
    · right
      rw [h.hearing_rx]
      rcases hspared with hsame | hother | hearly
      · exact absurd hsame hdamaged
      · refine absurd ?_ hother
        rw [hs]
        exact congrArg some (h.expected (f := f) ha).1
      · exact hearly
    · exact .inl (h.repeated ha)
  subst hnil
  exact h.turn_repeat hbad ⟨hframe, hmem, hr5.trans (BitVec.add_zero _)⟩ hnone hfair

end Sending

end Blocks

/-- All blocks have been accepted: the call returns their length. -/
theorem turn_eot {payload : List Byte} {a : ℕ} (hw : l.session.waiting = .eot)
    (hp : l.session.server.pendingPayload = some payload)
    (hlen : payload.length ≤ B.count.toNat) (ha : 128 * a = payload.length)
    (hf : Filled B payload a l.cpu) (hrx : (l.hearing f).rx = [some Serial.eot])
    (hlost : f.lost = false) (hapart : Apart B) :
    (l.turn t f).returned = some (BitVec.ofNat 16 payload.length) ∧
      (l.turn t f).cpu.mem = B.mem.storeList B.address payload ∧
      Delivered B (l.turn t f) (BitVec.ofNat 16 payload.length) := by
  have hc := B.count.isLt
  obtain ⟨m', heot, hstill, -⟩ := Cpu.response_eot hrx
  have hfilled : Filled B payload a m' := hf.hearing.kept (.of_still hstill)
  have hall : payload.take (128 * a) = payload := by rw [ha, List.take_length]
  have hmem : m'.mem = B.mem.storeList B.address payload := by rw [hfilled.mem, hall]
  have hcount : m'.mem.readWord (m'.r7 + iCc) = B.count := by
    rw [hmem, hfilled.r7]
    exact Memory.readWord_congr (Memory.storeList_outside _ (hlen.trans hapart.1))
      (Memory.storeList_outside _ (hlen.trans hapart.2))
  have hn : m'.mem.readWord (m'.r7 + iCc) - m'.r4 = BitVec.ofNat 16 payload.length := by
    rw [hcount, hfilled.r4, ha]
    bv_omega
  have hn' : (BitVec.ofNat 16 payload.length).toNat = payload.length := by
    rw [BitVec.toNat_ofNat]
    omega
  have htx : (round (l.hearing f)).2.tx = [ack] := by
    rw [round, heot]
    exact congrArg (· ++ [ack]) hstill.tx
  have hserver : (l.session.feed t [ack]).1.server = l.session.server := by
    simp only [Session.feed, Session.receive, hw, if_true]
  rw [Link.turn_eq hlost, htx, round, heot]
  refine ⟨congrArg some hn, hmem, ⟨payload, hserver ▸ hp, hn'.le, ?_⟩, ?_⟩
  · intro i hi
    rw [hn'] at hi
    exact (congrFun hmem _).trans (Memory.storeList_add _ _ _ (by omega) hi)
  · intro x hx
    exact (congrFun hmem x).trans (Memory.storeList_outside _ (hlen.trans hx))

/-- The states of a call that has not returned: a block is being sent and the driver has accepted
all before it, and perhaps the block itself; or all have been accepted; or the server has refused
the request. -/
inductive Phase (B : Buffer) (l : Link) : Prop
  | block (payload : List Byte) (i a : ℕ) (h : Sending B l payload i a) (ha : a = i ∨ a = i + 1)
    (hs : l.sent = blockPacket payload i ∨ l.sent = [])
  | eot (payload : List Byte) (a : ℕ) (hw : l.session.waiting = .eot)
    (hp : l.session.server.pendingPayload = some payload)
    (hlen : payload.length ≤ B.count.toNat) (ha : 128 * a = payload.length)
    (hs : l.sent = [Serial.eot]) (hf : Filled B payload a l.cpu) (hrx : l.cpu.rx = [])
  | refused (hw : l.session.waiting = .command ∨ l.session.waiting = .stopped)
    (hs : l.sent = [] ∨ l.sent = [can]) (hrx : l.cpu.rx = [])

/-- The invariant of a call. -/
inductive Settled (B : Buffer) (l : Link) : Prop
  | waiting (h : l.returned = none) (hp : Phase B l)
  | failed (h : l.returned = some 0xFFFF)
  | done (n : Word) (h : l.returned = some n) (hd : Delivered B l n)

theorem Phase.rx (h : Phase B l) : l.cpu.rx = [] := by
  cases h with
  | block payload i a h ha hs => exact h.rx
  | eot payload a hw hp hlen ha hs hf hrx => exact hrx
  | refused hw hs hrx => exact hrx

theorem Phase.turn (hphase : Phase B l) (hapart : Apart B) (hfair : l.Fair t f)
    (hspared : l.Spared f) : Settled B (l.turn t f) := by
  have hhear : (l.hearing f).rx = f.events := by
    rw [Link.hearing, hphase.rx, List.nil_append]
  -- Nothing but a data packet is ever damaged, or its acknowledgement lost.
  have hsure : ¬ l.Data → (l.hearing f).rx = l.sent.map some ∧ f.lost = false := by
    intro hdata
    refine ⟨hhear.trans (hfair.events.resolve_right fun h ↦ hdata h.1), ?_⟩
    by_contra hl
    exact hdata (hfair.lost (by simpa using hl)).1
  have hsilent : l.sent = [] → ∃ m', (l.hearing f).response = (.bad, m') ∧
      Cpu.Still (l.hearing f) m' ∧ none ∉ m'.rx := by
    intro hs
    have hsent := (hsure (by rw [Link.Data, hs]; simp)).1
    rw [hs] at hsent
    obtain ⟨m', hbad, hstill, hrest⟩ := Cpu.response_silence hsent
    exact ⟨m', hbad, hstill, by simp [hrest]⟩
  cases hphase with
  | block payload i a h ha hs =>
    rcases hs with hs | hs
    · by_cases hintact : f.events = l.sent.map some
      · rw [hs] at hintact
        cases hlost : f.lost with
        | true =>
          obtain ⟨hret, hs', h'⟩ := h.turn_unheard (t := t) ha hintact hlost
          exact .waiting hret (.block payload i (i + 1) h' (.inr rfl) (.inr hs'))
        | false =>
          obtain ⟨hret, ⟨hs', h'⟩ | ⟨hs', hw, hp, hrx, hlen, hf⟩⟩ :=
            h.turn_heard (t := t) ha hintact hlost
          · exact .waiting hret (.block payload _ _ h' (.inl rfl) (.inl hs'))
          · exact .waiting hret (.eot payload _ hw hp h.length hlen hs' hf hrx)
      · rcases h.turn_damaged ha hs hintact hfair hspared with hret | ⟨hret, hs', h'⟩
        · exact .failed hret
        · exact .waiting hret (.block payload i a h' ha (.inl hs'))
    · obtain ⟨m', hbad, hstill, hnone⟩ := hsilent hs
      rcases h.turn_repeat hbad hstill hnone hfair with hret | ⟨hret, hs', h'⟩
      · exact .failed hret
      · exact .waiting hret (.block payload i a h' ha (.inl hs'))
  | eot payload a hw hp hlen ha hs hf hrx =>
    have hne : Serial.eot ≠ soh := by decide
    obtain ⟨hrx', hlost⟩ := hsure (by simpa [Link.Data, hs] using hne)
    rw [hs] at hrx'
    obtain ⟨hret, -, hd⟩ := turn_eot (t := t) hw hp hlen ha hf hrx' hlost hapart
    exact .done _ hret hd
  | refused hw hs hrx =>
    rcases hs with hs | hs
    · obtain ⟨m', hbad, hstill, hnone⟩ := hsilent hs
      have hturn := turn_bad hbad hstill.toFrame hnone hfair
      split at hturn
      · exact .failed hturn.1
      · obtain ⟨hret, hrx', hses, hsent, -, -⟩ := hturn
        rw [feed_nak_refused hw] at hses hsent
        exact .waiting hret (.refused (hses ▸ hw) (.inl hsent) hrx')
    · have hne : can ≠ soh := by decide
      obtain ⟨hrx', -⟩ := hsure (by simpa [Link.Data, hs] using hne)
      rw [hs] at hrx'
      obtain ⟨m', herror, -, -⟩ := Cpu.response_can hrx'
      have hround : (round (l.hearing f)).1 = some 0xFFFF := by
        rw [round, herror]
        rfl
      exact .failed hround

end Turns

end S8000.Serial.Zeus
