import S8000.Sadie.Link
import S8000.Foundation.Segments

namespace S8000.Sadie

open Foundation Foundation.Bytes Foundation.Segments Serial

/-- The segment a call writes to. -/
def target (M₀ : Machine) : Segment := (low M₀.cpu.r7).setWidth 7

/-- The linear address that a call writes to: the segment is in `r7`, the offset in `r6`. -/
def destination (M₀ : Machine) : ℕ := M₀.cpu.r7.toNat * 65536 + M₀.cpu.r6.toNat

/-- `data` has been stored piece by piece, and `n` records may still be read. -/
structure Stored (M₀ : Machine) (parts : List (List Byte)) (data : List Byte) (n : ℕ) (M : Machine) :
    Prop where
  flatten : parts.flatten = data
  r15 : M.cpu.r15 = M₀.cpu.r15 - readFrame
  destSeg : (locals M.cpu).destSeg =
    M₀.cpu.r7 + BitVec.ofNat 16 ((M₀.cpu.r6.toNat + data.length) / 65536)
  destOff : (locals M.cpu).destOff = M₀.cpu.r6 + BitVec.ofNat 16 data.length
  remaining : (locals M.cpu).remaining = M₀.cpu.r5 - BitVec.ofNat 16 data.length
  countPtr : (locals M.cpu).countPtr = M₀.cpu.r4
  recordsLeft : (locals M.cpu).recordsLeft = BitVec.ofNat 16 n
  total : (locals M.cpu).total = BitVec.ofNat 16 data.length
  phys : M.phys = storeBlocks (destination M₀) M₀.phys parts
  bytes : data.length ≤ M₀.cpu.r5.toNat
  records : n < 65536

/-- The bytes of a request for a record of at most `maximum` bytes. -/
def requestBytes (maximum : Word) : List Byte :=
  [charR, high maximum, low maximum, xorAll [charR, high maximum, low maximum]]

theorem segmentOf_destination (M₀ : Machine) (k : ℕ) :
    (low (M₀.cpu.r7 + BitVec.ofNat 16 ((M₀.cpu.r6.toNat + k) / 65536))).setWidth 7 =
      segmentOf 7 (destination M₀ + k) := by
  have hdiv : (destination M₀ + k) / 65536 =
      M₀.cpu.r7.toNat + (M₀.cpu.r6.toNat + k) / 65536 := by
    rw [destination]
    omega
  apply BitVec.eq_of_toNat_eq
  rw [segmentOf, hdiv, BitVec.toNat_setWidth, low_toNat, BitVec.toNat_add, BitVec.toNat_ofNat,
    BitVec.toNat_ofNat]
  omega

theorem offsetOf_destination (M₀ : Machine) (k : ℕ) :
    offsetOf (destination M₀ + k) = M₀.cpu.r6 + BitVec.ofNat 16 k := by
  rw [offsetOf_add]
  congr 1
  apply BitVec.eq_of_toNat_eq
  have := M₀.cpu.r6.isLt
  rw [offsetOf, destination, BitVec.toNat_ofNat]
  omega

namespace Stored

variable {M₀ M M' : Machine} {parts : List (List Byte)} {data : List Byte} {n : ℕ}

theorem congr (h : Stored M₀ parts data n M) (h15 : M'.cpu.r15 = M.cpu.r15) {left : Word}
    (hl : locals M'.cpu = { locals M.cpu with recordLeft := left }) (hp : M'.phys = M.phys) :
    Stored M₀ parts data n M' where
  flatten := h.flatten
  r15 := h15.trans h.r15
  destSeg := by rw [hl]; exact h.destSeg
  destOff := by rw [hl]; exact h.destOff
  remaining := by rw [hl]; exact h.remaining
  countPtr := by rw [hl]; exact h.countPtr
  recordsLeft := by rw [hl]; exact h.recordsLeft
  total := by rw [hl]; exact h.total
  phys := hp.trans h.phys
  bytes := h.bytes
  records := h.records

/-- A record has been read to its end. -/
theorem next (h : Stored M₀ parts data (n + 1) M) (h15 : M'.cpu.r15 = M.cpu.r15)
    (hl : locals M'.cpu = { locals M.cpu with recordsLeft := (locals M.cpu).recordsLeft - 1 })
    (hp : M'.phys = M.phys) : Stored M₀ parts data n M' where
  flatten := h.flatten
  r15 := h15.trans h.r15
  destSeg := by rw [hl]; exact h.destSeg
  destOff := by rw [hl]; exact h.destOff
  remaining := by rw [hl]; exact h.remaining
  countPtr := by rw [hl]; exact h.countPtr
  recordsLeft := by
    rw [hl]
    have hleft := h.recordsLeft
    rw [BitVec.ofNat_add] at hleft
    rw [hleft]
    exact BitVec.add_sub_cancel _ _
  total := by rw [hl]; exact h.total
  phys := hp.trans h.phys
  bytes := h.bytes
  records := Nat.lt_of_succ_lt h.records

theorem toNat_remaining (h : Stored M₀ parts data n M) :
    (locals M.cpu).remaining.toNat = M₀.cpu.r5.toNat - data.length := by
  have hlen := h.bytes
  have hr5 := M₀.cpu.r5.isLt
  rw [h.remaining, BitVec.toNat_sub, BitVec.toNat_ofNat]
  omega

/-- The call ends well: the count is where it was asked for. -/
theorem readOk_spec (h : Stored M₀ parts data n M) :
    (readOk M.cpu).1 = .returned 0 ∧ (readOk M.cpu).2.tx = M.cpu.tx ∧
      (readOk M.cpu).2.mem.readWord M₀.cpu.r4 = BitVec.ofNat 16 data.length := by
  have hptr : field M.cpu Sadie.countPtr = M₀.cpu.r4 := h.countPtr
  have htotal : field M.cpu Sadie.total = BitVec.ofNat 16 data.length := h.total
  refine ⟨rfl, rfl, ?_⟩
  rw [← hptr, ← htotal]
  exact Memory.readWord_writeWord _ _ _

/-- Nothing more is to be read. -/
theorem readNext_done (h : Stored M₀ parts data n M) (hd : data.length = M₀.cpu.r5.toNat ∨ n = 0) :
    readNext M.cpu = readOk M.cpu := by
  rw [readNext]
  rcases hd with hd | rfl
  · have hrem : field M.cpu Sadie.remaining = 0 := by
      apply BitVec.eq_of_toNat_eq
      rw [show (field M.cpu Sadie.remaining).toNat = _ from h.toNat_remaining, hd, Nat.sub_self]
      rfl
    rw [if_pos hrem]
  · have hleft : field M.cpu Sadie.recordsLeft = 0 := h.recordsLeft
    rw [if_pos hleft, ite_self]

/-- The next record is asked for. -/
theorem readNext_request (h : Stored M₀ parts data n M) (hd : data.length < M₀.cpu.r5.toNat)
    (hn : n ≠ 0) :
    ∃ m', readNext M.cpu = (.wait .header, m') ∧ m'.r15 = M.cpu.r15 ∧ locals m' = locals M.cpu ∧
      m'.rx = M.cpu.rx ∧ m'.tx = M.cpu.tx ++ requestBytes (locals M.cpu).remaining := by
  have hrem : field M.cpu Sadie.remaining ≠ 0 := by
    intro h0
    have hnat : (0 : Word).toNat = M₀.cpu.r5.toNat - data.length := h0 ▸ h.toNat_remaining
    have hzero : (0 : Word).toNat = 0 := rfl
    omega
  have hleft : field M.cpu Sadie.recordsLeft ≠ 0 := by
    intro h0
    have hzero : BitVec.ofNat 16 n = 0 := h.recordsLeft.symm.trans h0
    have hnat := congrArg BitVec.toNat hzero
    rw [BitVec.toNat_ofNat, Nat.mod_eq_of_lt h.records] at hnat
    exact hn hnat
  rw [readNext, if_neg hrem, if_neg hleft]
  refine ⟨_, rfl, rfl, rfl, rfl, ?_⟩
  have hlow : M.cpu.r15 + (Sadie.remaining + 1) = M.cpu.r15 + Sadie.remaining + 1 :=
    (BitVec.add_assoc _ _ _).symm
  simp only [putChecked, Cpu.putByte, high_word, low_word, requestBytes, locals, field,
    Memory.readWord, hlow, xorAll]
  simp

/-- The size of a copy is what the record has left, a block at most. -/
theorem packetSetup_r4 {left : ℕ} (hleft : (locals M.cpu).recordLeft = BitVec.ofNat 16 left)
    (hleft' : left < 65536) : (packetSetup M.cpu).r4 = BitVec.ofNat 16 (min left 128) := by
  have htoNat : (BitVec.ofNat 16 left).toNat = left := by
    rw [BitVec.toNat_ofNat, Nat.mod_eq_of_lt hleft']
  have h4 : (packetSetup M.cpu).r4 =
      if (locals M.cpu).recordLeft.toNat ≤ 128 then (locals M.cpu).recordLeft else 128 := rfl
  rw [h4, hleft, htoNat]
  split
  · rw [Nat.min_eq_left (by assumption)]
  · rw [Nat.min_eq_right (by omega)]
    rfl

theorem djnzPasses_ofNat {k : ℕ} (hpos : 0 < k) (hk : k < 65536) :
    djnzPasses (BitVec.ofNat 16 k) = k := by
  have htoNat : (BitVec.ofNat 16 k).toNat = k := by rw [BitVec.toNat_ofNat, Nat.mod_eq_of_lt hk]
  have hne : BitVec.ofNat 16 k ≠ 0 := by
    intro h0
    rw [h0] at htoNat
    have hzero : (0 : Word).toNat = 0 := rfl
    omega
  rw [djnzPasses, if_neg hne, htoNat]

/-- The block at the beginning of the buffer is copied behind the data. -/
theorem packetCopy_spec (h : Stored M₀ parts data n M) {block : List Byte} (hpos : 0 < block.length)
    (hr4 : (packetSetup M.cpu).r4 = BitVec.ofNat 16 block.length)
    (hroom : data.length + block.length ≤ M₀.cpu.r5.toNat)
    (hbuf : readBytes M.cpu.mem M.cpu.r15 block.length = block) :
    (packetCopy M).phys = storeBlocks (destination M₀) M₀.phys (parts ++ [block]) ∧
      locals (packetCopy M).cpu = locals M.cpu ∧
      (packetCopy M).cpu.r15 = M.cpu.r15 ∧
      (packetCopy M).cpu.r4 = BitVec.ofNat 16 block.length ∧
      high (packetCopy M).cpu.r2 = high M.cpu.r2 ∧ (packetCopy M).cpu.rx = M.cpu.rx ∧
      (packetCopy M).cpu.tx = M.cpu.tx ++ [traceBeforeStore] := by
  have hr5 := M₀.cpu.r5.isLt
  have hpasses : djnzPasses (packetSetup M.cpu).r3 = block.length := by
    have h3 : (packetSetup M.cpu).r3 = BitVec.ofNat 16 block.length := hr4
    rw [h3, djnzPasses_ofNat hpos (by omega)]
  obtain ⟨hphys, hmem, h15, h4, h2, hrx, htx⟩ :=
    physicalByte_spec block.length { M with cpu := packetSetup M.cpu }
  have hseg : segment (packetSetup M.cpu).r6 = segmentOf 7 (destination M₀ + data.length) := by
    have h6 : (packetSetup M.cpu).r6 =
        word (low (locals M.cpu).destSeg) (high (locals M.cpu).destSeg) := rfl
    rw [segment, h6, high_word, h.destSeg, segmentOf_destination]
  have h7 : (packetSetup M.cpu).r7 = offsetOf (destination M₀ + data.length) := by
    rw [offsetOf_destination]
    exact h.destOff
  have hread : readBytes (packetSetup M.cpu).mem (packetSetup M.cpu).r5 block.length = block :=
    hbuf
  have hcopy : packetCopy M = physicalByte block.length { M with cpu := packetSetup M.cpu } := by
    rw [packetCopy, hpasses]
  rw [hcopy]
  refine ⟨?_, locals_of_mem_eq h15 hmem, h15, h4.trans hr4, ?_, hrx, htx⟩
  · rw [hphys, storeBlocks_concat, h.flatten, ← h.phys]
    simp only [hseg, h7, hread]
    rfl
  · rw [h2]
    exact high_word _ _

/-- The end of a block. -/
theorem packetAck_spec (m : Cpu) :
    (packetAck m).1 = .wait .packet ∧ (packetAck m).2.r15 = m.r15 ∧
      locals (packetAck m).2 = locals m ∧ (packetAck m).2.r4 = 128 ∧ (packetAck m).2.r5 = m.r15 ∧
      high (packetAck m).2.r2 = high m.r2 + 1 ∧ (packetAck m).2.rx = m.rx ∧
      (packetAck m).2.tx = m.tx ++ [Serial.ack] := by
  refine ⟨rfl, rfl, rfl, rfl, rfl, ?_, rfl, rfl⟩
  simp [packetAck, packetLoop, Cpu.putByte]

/-- The counters of a copied block. -/
theorem counted (h : Stored M₀ parts data n M) {block : List Byte}
    (hroom : data.length + block.length ≤ M₀.cpu.r5.toNat)
    (h15 : M'.cpu.r15 = M.cpu.r15)
    (hphys : M'.phys = storeBlocks (destination M₀) M₀.phys (parts ++ [block]))
    {m : Cpu} (hm : locals m = locals M.cpu) (h4 : m.r4 = BitVec.ofNat 16 block.length)
    (hl : locals M'.cpu = locals (packetCount m)) : Stored M₀ (parts ++ [block]) (data ++ block) n M' := by
  have hr5 := M₀.cpu.r5.isLt
  have hlen : (data ++ block).length = data.length + block.length := List.length_append
  have hofNat : BitVec.ofNat 16 (data ++ block).length =
      BitVec.ofNat 16 data.length + BitVec.ofNat 16 block.length := by
    rw [hlen, BitVec.ofNat_add]
  rw [locals_packetCount, hm, h4] at hl
  have hr6 := M₀.cpu.r6.isLt
  have hsum : (locals M.cpu).destOff.toNat + (BitVec.ofNat 16 block.length).toNat =
      (M₀.cpu.r6.toNat + data.length) % 65536 + block.length := by
    rw [h.destOff, BitVec.toNat_add, BitVec.toNat_ofNat, BitVec.toNat_ofNat]
    omega
  have hflat : (parts ++ [block]).flatten = data ++ block := by simp [h.flatten]
  refine ⟨hflat, h15.trans h.r15, ?_, ?_, ?_, ?_, ?_, ?_, hphys, by omega, h.records⟩
  · rw [hl, hlen]
    simp only [hsum, h.destSeg]
    split
    · -- The offset wraps, and the segment is the next one.
      have hnext : (M₀.cpu.r6.toNat + (data.length + block.length)) / 65536 =
          (M₀.cpu.r6.toNat + data.length) / 65536 + 1 := by omega
      rw [hnext, BitVec.ofNat_add, BitVec.add_assoc]
      rfl
    · have hsame : (M₀.cpu.r6.toNat + (data.length + block.length)) / 65536 =
          (M₀.cpu.r6.toNat + data.length) / 65536 := by omega
      rw [hsame]
  · rw [hl, hofNat, ← BitVec.add_assoc, ← h.destOff]
  · have hsub : M₀.cpu.r5 - (BitVec.ofNat 16 data.length + BitVec.ofNat 16 block.length) =
        M₀.cpu.r5 - BitVec.ofNat 16 data.length - BitVec.ofNat 16 block.length := by bv_omega
    rw [hl, hofNat, hsub, ← h.remaining]
  · rw [hl]
    exact h.countPtr
  · rw [hl]
    exact h.recordsLeft
  · rw [hl, hofNat, ← h.total]

/-- Another block of the record: the bytes of `block` are at the beginning of the buffer. -/
theorem packetValid_spec (h : Stored M₀ parts data n M) {left : ℕ} {block : List Byte}
    (hleft : (locals M.cpu).recordLeft = BitVec.ofNat 16 left) (hleft' : left < 65536)
    (hblock : block.length = min left 128) (hpos : 0 < block.length)
    (hroom : data.length + block.length ≤ M₀.cpu.r5.toNat)
    (hbuf : readBytes M.cpu.mem M.cpu.r15 block.length = block) :
    ∃ M', packetValid M = (.wait .packet, M') ∧ Stored M₀ (parts ++ [block]) (data ++ block) n M' ∧
      (locals M'.cpu).recordLeft = BitVec.ofNat 16 (left - block.length) ∧
      M'.cpu.r4 = 128 ∧ M'.cpu.r5 = M'.cpu.r15 ∧ high M'.cpu.r2 = high M.cpu.r2 + 1 ∧
      M'.cpu.rx = M.cpu.rx ∧
      M'.cpu.tx = M.cpu.tx ++ [traceBeforeStore, traceAfterStore, Serial.ack] := by
  have hr4 : (packetSetup M.cpu).r4 = BitVec.ofNat 16 block.length := by
    rw [packetSetup_r4 hleft hleft', hblock]
  obtain ⟨hphys, hlocals, h15, h4, h2, hrx, htx⟩ := h.packetCopy_spec hpos hr4 hroom hbuf
  generalize hM₁ : packetCopy M = M₁ at hphys hlocals h15 h4 h2 hrx htx
  have hm : locals (M₁.cpu.putByte traceAfterStore) = locals M.cpu := hlocals
  have h4' : (M₁.cpu.putByte traceAfterStore).r4 = BitVec.ofNat 16 block.length := h4
  have h15' : (M₁.cpu.putByte traceAfterStore).r15 = M.cpu.r15 := h15
  have h2' : high (M₁.cpu.putByte traceAfterStore).r2 = high M.cpu.r2 := (high_word _ _).trans h2
  have hrx' : (M₁.cpu.putByte traceAfterStore).rx = M.cpu.rx := hrx
  have htx' : (M₁.cpu.putByte traceAfterStore).tx = M₁.cpu.tx ++ [traceAfterStore] := rfl
  have hvalid : packetValid M =
      onCpu M₁ (packetAck (packetCount (M₁.cpu.putByte traceAfterStore))) := by
    rw [packetValid, hM₁]
  generalize M₁.cpu.putByte traceAfterStore = m at hm h4' h15' h2' hrx' htx' hvalid
  obtain ⟨hc15, hc2, hcrx, hctx⟩ := packetCount_frame m
  have hcount := congrArg Locals.recordLeft (locals_packetCount m)
  have hstored : ∀ {m' : Cpu}, locals m' = locals (packetCount m) → m'.r15 = M.cpu.r15 →
      Stored M₀ (parts ++ [block]) (data ++ block) n { M₁ with cpu := m' } :=
    fun hl h15 ↦ h.counted hroom h15 hphys hm h4' hl
  generalize packetCount m = c at hc15 hc2 hcrx hctx hcount hvalid hstored
  obtain ⟨hw, ha15, hal, ha4, ha5, ha2, harx, hatx⟩ := packetAck_spec c
  have hvalid' : packetValid M = (.wait .packet, { M₁ with cpu := (packetAck c).2 }) := by
    rw [hvalid, onCpu, hw]
  have hsub : BitVec.ofNat 16 (left - block.length) =
      BitVec.ofNat 16 left - BitVec.ofNat 16 block.length := by
    bv_omega
  refine ⟨_, hvalid', hstored hal (by rw [ha15, hc15, h15']), ?_, ha4, by rw [ha5, ha15], ?_,
    by rw [harx, hcrx, hrx'], ?_⟩
  · rw [hal, hcount, hm, h4', hleft, hsub]
  · rw [ha2, hc2, h2']
  · rw [hatx, hctx, htx', htx]
    simp

end Stored

section Rounds

variable {m : Cpu}

theorem locals_writeWord_recordLeft (m : Cpu) (v : Word) :
    locals { m with mem := m.mem.writeWord (m.r15 + recordLeft) v } =
      { locals m with recordLeft := v } := by
  simp (disch := decide) only [locals, field, Memory.readWord_writeWord, readWord_writeWord_frame]

/-- The request for the packets. -/
theorem crcRequest_spec (m : Cpu) (x : Byte) :
    ∃ m', packetLoop (Cpu.putByte { m with r2 := word 1 x, r3 := word 0 (low m.r3) } crcRequest) =
        (.wait .packet, m') ∧ m'.r15 = m.r15 ∧ locals m' = locals m ∧ high m'.r2 = 1 ∧
      m'.r4 = 128 ∧ m'.r5 = m'.r15 ∧ m'.rx = m.rx ∧ m'.tx = m.tx ++ [crcRequest] := by
  refine ⟨_, rfl, rfl, rfl, ?_, rfl, rfl, rfl, rfl⟩
  exact (high_word _ _).trans (high_word _ _)

/-- A header announces a record that fits. -/
theorem headerRound_record {h l : Byte} (hrx : m.rx = [some stx, some h, some l])
    (hfits : (word h l).toNat ≤ (locals m).remaining.toNat) :
    ∃ m', headerRound m = (.wait .packet, m') ∧ m'.r15 = m.r15 ∧
      locals m' = { locals m with recordLeft := word h l } ∧ high m'.r2 = 1 ∧ m'.r4 = 128 ∧
      m'.r5 = m'.r15 ∧ m'.rx = [] ∧ m'.tx = m.tx ++ [crcRequest] := by
  have hstx : stx ≠ Serial.eot := by decide
  obtain ⟨h0, h3, hrx₁, -, -⟩ := Cpu.getByte_some_spec hrx
  obtain ⟨h0', h3', hrx₂, -, -⟩ := Cpu.getByte_some_spec hrx₁
  have hstill := m.getByte_still.trans m.getByte.getByte_still
  set m₂ : Cpu := { m.getByte.getByte with
    mem := m.getByte.getByte.mem.store (m.getByte.getByte.r15 + recordLeft) h
    r1 := word (high m.getByte.getByte.r1) h } with hm₂
  have hrx₂' : m₂.rx = [some l] := hrx₂
  obtain ⟨h0'', h3'', hrx₃, -, -⟩ := Cpu.getByte_some_spec hrx₂'
  have hstill₃ := m₂.getByte_still
  have hr15 : m₂.getByte.r15 = m.r15 := hstill₃.r15.trans hstill.r15
  have hnext : m.r15 + (recordLeft + 1) = m.r15 + recordLeft + 1 := (BitVec.add_assoc _ _ _).symm
  have hmem : (m₂.getByte.mem.store (m₂.getByte.r15 + (recordLeft + 1)) l) =
      m.mem.writeWord (m.r15 + recordLeft) (word h l) := by
    rw [hstill₃.mem, hr15, hnext, Memory.writeWord, high_word, low_word]
    simp only [hm₂, hstill.mem, hstill.r15]
  set m₃ : Cpu := { m₂.getByte with
    mem := m₂.getByte.mem.store (m₂.getByte.r15 + (recordLeft + 1)) l } with hm₃
  have hlocals : locals m₃ = { locals m with recordLeft := word h l } := by
    rw [← locals_writeWord_recordLeft]
    exact locals_of_mem_eq hr15 hmem
  have hleft : field m₃ recordLeft = word h l := congrArg Locals.recordLeft hlocals
  have hfits' : ¬ (field m₃ remaining).toNat < (field m₃ recordLeft).toNat := by
    have hrem : field m₃ remaining = (locals m).remaining := congrArg Locals.remaining hlocals
    rw [hleft, hrem]
    omega
  have hround : headerRound m = packetLoop (Cpu.putByte
      { m₃ with r2 := word 1 (low (field m₃ recordLeft)), r3 := word 0 (low m₃.r3) } crcRequest) := by
    rw [headerRound]
    simp only [if_neg h0, h3, if_neg hstx, ne_eq, not_true_eq_false, if_false, if_neg h0', h3']
    rw [← hm₂, if_neg h0'', h3'', ← hm₃]
    exact if_neg hfits'
  have hrx₃' : m₃.rx = [] := hrx₃
  have htx₃ : m₃.tx = m.tx := hstill₃.tx.trans hstill.tx
  obtain ⟨m', hloop, h15', hlocals', h2', h4', h5', hrx', htx'⟩ :=
    crcRequest_spec m₃ (low (field m₃ recordLeft))
  refine ⟨m', hround.trans hloop, h15'.trans hr15, hlocals'.trans hlocals, h2', h4', h5', ?_, ?_⟩
  · rw [hrx', hrx₃']
  · rw [htx', htx₃]

/-- The end of the file. -/
theorem headerRound_eof (hrx : m.rx = [some Serial.eot]) :
    ∃ m', headerRound m = readOk m' ∧ m'.r15 = m.r15 ∧ locals m' = locals m ∧
      m'.tx = m.tx ++ [Serial.ack] := by
  obtain ⟨h0, h3, -, -, -⟩ := Cpu.getByte_some_spec hrx
  have hstill := m.getByte_still
  refine ⟨m.getByte.putByte Serial.ack, ?_, hstill.r15, locals_of_mem_eq hstill.r15 hstill.mem,
    congrArg (· ++ [Serial.ack]) hstill.tx⟩
  rw [headerRound]
  simp only [if_neg h0, h3, if_true]

/-- A bad response: the driver gives up or asks again. -/
theorem packetBad_spec (hnone : none ∉ m.rx) :
    (packetBad m).1 = .returned 0xFFFF ∨
      ((packetBad m).1 = .wait .packet ∧ (packetBad m).2.r15 = m.r15 ∧
        locals (packetBad m).2 = locals m ∧ high (packetBad m).2.r2 = high m.r2 ∧
        (packetBad m).2.r4 = 128 ∧ (packetBad m).2.r5 = m.r15 ∧ (packetBad m).2.rx = [] ∧
        (packetBad m).2.tx = m.tx ++ [nak]) := by
  set m₁ : Cpu := { m with r3 := word (high m.r3 + 1) (low m.r3) } with hm₁
  have hstill := m₁.drain_still
  rw [packetBad]
  simp only [← hm₁]
  split
  · exact .inl rfl
  · exact .inr ⟨rfl, hstill.r15, locals_of_mem_eq hstill.r15 hstill.mem,
      (high_word _ _).trans hstill.rh2, rfl, hstill.r15, m₁.drain_rx hnone,
      congrArg (· ++ [nak]) hstill.tx⟩

/-- The end of a record. -/
theorem recordEot_spec (hleft : (locals m).recordLeft = 0) :
    ∃ m', recordEot m = readNext m' ∧ m'.r15 = m.r15 ∧ m'.rx = m.rx ∧ m'.tx = m.tx ++ [Serial.ack] ∧
      locals m' = { locals m with recordsLeft := (locals m).recordsLeft - 1 } := by
  have hleft' : ¬ field m recordLeft ≠ 0 := not_not.mpr hleft
  have heot : recordEot m =
      readNext (setField (m.putByte Serial.ack) recordsLeft (field (m.putByte Serial.ack) recordsLeft - 1)) := by
    rw [recordEot, if_neg hleft']
  have hlocals := locals_setField_recordsLeft (m.putByte Serial.ack) (field (m.putByte Serial.ack) recordsLeft - 1)
  exact ⟨_, heot, rfl, rfl, rfl, hlocals⟩

end Rounds

end S8000.Sadie
