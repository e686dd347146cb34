import S8000.Serial.Damage

namespace S8000.Serial

open Foundation Foundation.Bytes

/-- `crc.to_bytes(2, "big")`. -/
def toBytes2 (crc : ℕ) : List Byte := [BitVec.ofNat 8 (crc >>> 8), BitVec.ofNat 8 crc]

namespace ServeTape

def crc16Xmodem (payload : List Byte) : ℕ := payload.foldl (Remainder.wideFeed 0x1021) 0

/-- `none` is the `ValueError` of a payload that has not 128 bytes. -/
def xmodemPacket (blockNumber : Byte) (payload : List Byte) : Option (List Byte) :=
  if payload.length ≠ xmodemBlockSize then none
  else some ([soh, blockNumber, 0xFF ^^^ blockNumber] ++ payload ++ toBytes2 (crc16Xmodem payload))

end ServeTape

namespace ServeSadie

def crc16Xmodem (payload : List Byte) : ℕ := payload.foldl (Remainder.wideFeed 0x1021) 0

def xmodemPacket (number : Byte) (payload : List Byte) : List Byte :=
  let payload := payload.rightpad 128 0
  [soh, number, number ^^^ 0xFF] ++ payload ++ toBytes2 (crc16Xmodem payload)

end ServeSadie

theorem crc16Xmodem_toNat (payload : List Byte) :
    ServeTape.crc16Xmodem payload = (crc16Xmodem payload).toNat :=
  Remainder.foldl_wideFeed_toNat 0x1021#16 payload 0#16

theorem toBytes2_toNat (w : Word) : toBytes2 w.toNat = [high w, low w] := by
  have hhigh : BitVec.ofNat 8 (w.toNat >>> 8) = high w := by
    apply BitVec.eq_of_toNat_eq
    have hw := w.isLt
    rw [BitVec.toNat_ofNat, high_toNat, Nat.shiftRight_eq_div_pow]
    omega
  have hlow : BitVec.ofNat 8 w.toNat = low w := by
    apply BitVec.eq_of_toNat_eq
    rw [BitVec.toNat_ofNat, low_toNat]
  rw [toBytes2, hhigh, hlow]

theorem serveTape_xmodemPacket (n : Byte) {payload : List Byte} (h : payload.length = 128) :
    ServeTape.xmodemPacket n payload = some (xmodemPacket n payload) := by
  have hlen : ¬ payload.length ≠ xmodemBlockSize := fun hne ↦ hne h
  rw [ServeTape.xmodemPacket, if_neg hlen, crc16Xmodem_toNat, toBytes2_toNat, xmodemPacket]

theorem serveSadie_xmodemPacket (n : Byte) {payload : List Byte} (h : payload.length = 128) :
    ServeSadie.xmodemPacket n payload = xmodemPacket n payload := by
  have hpad : payload.rightpad 128 0 = payload := by simp [List.rightpad, h]
  have hcrc : ServeSadie.crc16Xmodem payload = (crc16Xmodem payload).toNat := crc16Xmodem_toNat payload
  rw [ServeSadie.xmodemPacket, hpad, hcrc, toBytes2_toNat, BitVec.xor_comm, xmodemPacket]

namespace Cpu

/-- `.Lcrcbyte` for each byte of a string, from the initial value the core loads. -/
def crcBytesFrom (m : Cpu) (bytes : List Byte) : Cpu :=
  bytes.foldl (fun m b ↦ crcByte { m with r3 := word (high m.r3) b }) { m with r1 := 0 }

theorem crcBytesFrom_r1 (m : Cpu) (bytes : List Byte) :
    (m.crcBytesFrom bytes).r1 = Serial.crc16Xmodem bytes := by
  have hfold : ∀ m : Cpu, (bytes.foldl (fun m b ↦ crcByte { m with r3 := word (high m.r3) b }) m).r1 =
      Remainder.remainder 0x1021#16 m.r1 bytes := by
    induction bytes with
    | nil => exact fun m ↦ rfl
    | cons b bytes ih =>
      intro m
      rw [List.foldl_cons, ih, crcByte_r1, low_word, Remainder.remainder_cons]
  exact hfold _

variable {m : Cpu} {a b c d : Byte} {data : List Byte} {rest : List (Option Byte)}

/-- The core is through with a new block: the data is at `r5`. -/
def Accepts (m : Cpu) (data : List Byte) : Prop :=
  ∃ m', m.response = (.valid, m') ∧ m'.mem = m.mem.storeList m.r5 data ∧ m'.tx = m.tx

/-- The core has acknowledged a repeated block and stored nothing. -/
def Repeats (m : Cpu) : Prop :=
  ∃ m', m.response = (.duplicate, m') ∧ m'.mem = m.mem ∧ m'.tx = m.tx ++ [ack] ∧ high m'.r3 = 0

theorem checkCrc_cases {k : Cpu → Exit × Cpu} (hrx : m.rx = some c :: some d :: rest) :
    (c = high m.r1 ∧ d = low m.r1 ∧ ∃ m', m.checkCrc k = k m' ∧ Still m m') ∨
      (¬ (c = high m.r1 ∧ d = low m.r1) ∧ (m.checkCrc k).1 = .bad) := by
  by_cases h : c = high m.r1 ∧ d = low m.r1
  · obtain ⟨rfl, rfl⟩ := h
    obtain ⟨m', hk, hstill, -⟩ := checkCrc_good hrx (k := k)
    exact .inl ⟨rfl, rfl, m', hk, hstill⟩
  · refine .inr ⟨h, ?_⟩
    obtain ⟨m', hbad, -, -⟩ := checkCrc_bad (m := m) (k := k) (by
      intro rest' hr
      rw [hrx] at hr
      simp only [List.cons.injEq, Option.some.injEq] at hr
      exact h ⟨hr.1, hr.2.1⟩)
    rw [hbad]

/-- The data and the remainder of a new block. -/
theorem copy_cases (hlen : data.length = 128) (hr1 : m.r1 = 0)
    (hrx : m.rx = data.map some ++ some c :: some d :: rest) :
    ([c, d] = crcBytes data ∧ ∃ m', copy 128 m = (.valid, m') ∧
        m'.mem = m.mem.storeList m.r5 data ∧ m'.tx = m.tx) ∨
      ([c, d] ≠ crcBytes data ∧ (copy 128 m).1 = .bad) := by
  obtain ⟨m₁, hcopy, hframe, hrx₁, hmem, -, hcrc⟩ := copy_bytes data _ 0 m hrx
  rw [hlen, Nat.zero_add] at hcopy
  rw [hr1] at hcrc
  have heq : [c, d] = crcBytes data ↔ c = high m₁.r1 ∧ d = low m₁.r1 := by
    rw [hcrc, crcBytes, crc16Xmodem]
    simp
  rw [hcopy, copy]
  rcases checkCrc_cases hrx₁ (k := fun m ↦ (Exit.valid, m)) with ⟨hc, hd, m', hk, hstill⟩ | ⟨hne, hbad⟩
  · refine .inl ⟨heq.mpr ⟨hc, hd⟩, m', hk, ?_, hstill.tx.trans hframe.tx⟩
    rw [hstill.mem, hmem]
  · exact .inr ⟨fun h ↦ hne (heq.mp h), hbad⟩

theorem discard_cases (hlen : data.length = 128) (hr1 : m.r1 = 0)
    (hrx : m.rx = data.map some ++ some c :: some d :: rest) :
    ([c, d] = crcBytes data ∧ ∃ m', discard 128 m = (.duplicate, m') ∧ m'.mem = m.mem ∧
        m'.tx = m.tx ++ [ack] ∧ high m'.r3 = 0) ∨
      ([c, d] ≠ crcBytes data ∧ (discard 128 m).1 = .bad) := by
  obtain ⟨m₁, hdiscard, hstill₁, hrx₁, hcrc⟩ := discard_bytes data _ 0 m hrx
  rw [hlen, Nat.zero_add] at hdiscard
  rw [hr1] at hcrc
  have heq : [c, d] = crcBytes data ↔ c = high m₁.r1 ∧ d = low m₁.r1 := by
    rw [hcrc, crcBytes, crc16Xmodem]
    simp
  rw [hdiscard, discard]
  rcases checkCrc_cases hrx₁ (k := fun m ↦
      (Exit.duplicate, { m.putByte ack with r3 := word 0 (low (m.putByte ack).r3) })) with
    ⟨hc, hd, m', hk, hstill⟩ | ⟨hne, hbad⟩
  · have hall := hstill₁.trans hstill
    refine .inl ⟨heq.mpr ⟨hc, hd⟩, _, hk, hall.mem, ?_, high_word _ _⟩
    exact congrArg (· ++ [ack]) hall.tx
  · exact .inr ⟨fun h ↦ hne (heq.mp h), hbad⟩

/-- What the core makes of a packet whose bytes all arrive. -/
theorem response_cases (hlen : data.length = 128)
    (hrx : m.rx = some soh :: some a :: some b :: (data.map some ++ some c :: some d :: rest)) :
    (128 ≤ m.r4.toNat ∧ a = high m.r2 ∧ b = 0xFF ^^^ a ∧ [c, d] = crcBytes data ∧ m.Accepts data) ∨
      (a = high m.r2 - 1 ∧ b = 0xFF ^^^ a ∧ [c, d] = crcBytes data ∧ m.Repeats) ∨
      (¬ (128 ≤ m.r4.toNat ∧ a = high m.r2 ∧ b = 0xFF ^^^ a ∧ [c, d] = crcBytes data) ∧
        ¬ (a = high m.r2 - 1 ∧ b = 0xFF ^^^ a ∧ [c, d] = crcBytes data) ∧
        m.response.1 = .bad) := by
  obtain ⟨m₁, hresponse, hstill₁, hrx₁, h6, h3⟩ := response_header hrx
  have hcomplement : a ^^^ b = 0xFF ↔ b = 0xFF ^^^ a := by
    constructor
    · intro h
      rw [← h, BitVec.xor_comm a b, BitVec.xor_assoc, BitVec.xor_self, BitVec.xor_zero]
    · rintro rfl
      exact number_xor_complement a
  by_cases hab : a ^^^ b = 0xFF
  · have hb := hcomplement.mp hab
    by_cases hnew : a = high m.r2
    · have hold : a ≠ high m.r2 - 1 := by
        rw [hnew]
        bv_omega
      by_cases h4 : 128 ≤ m.r4.toNat
      · obtain ⟨m₂, hdispatch, hstill₂, hrx₂, hr1⟩ := dispatch_new h6 h3 hab
          (hnew.trans hstill₁.rh2.symm) (by rw [hstill₁.r4]; exact h4)
        have hstill := hstill₁.trans hstill₂
        rw [Accepts, hresponse, hdispatch, ← hstill.mem, ← hstill.r5, ← hstill.tx]
        rcases copy_cases hlen hr1 (hrx₂.trans hrx₁) with ⟨hcrc, hvalid⟩ | ⟨hcrc, hbad⟩
        · exact .inl ⟨h4, hnew, hb, hcrc, hvalid⟩
        · exact .inr (.inr ⟨fun h ↦ hcrc h.2.2.2, fun h ↦ hold h.1, hbad⟩)
      · refine .inr (.inr ⟨fun h ↦ h4 h.1, fun h ↦ hold h.1, ?_⟩)
        have hab' : ¬ b ^^^ a ≠ 0xFF := by rw [BitVec.xor_comm, hab]; simp
        have hshort : m₁.r4.toNat < 128 := by
          rw [hstill₁.r4]
          omega
        have hnew' : a = high m₁.r2 := hnew.trans hstill₁.rh2.symm
        rw [hresponse, dispatch]
        simp only [low_word, h6, h3, if_neg hab', if_pos hnew', newBlock, if_pos hshort]
    · by_cases hold : a = high m.r2 - 1
      · obtain ⟨m₂, hdispatch, hstill₂, hrx₂, hr1⟩ := dispatch_old h6 h3 hab (by
          rw [hold, hstill₁.rh2]
          bv_omega)
        have hstill := hstill₁.trans hstill₂
        rw [Repeats, hresponse, hdispatch, ← hstill.mem, ← hstill.tx]
        rcases discard_cases hlen hr1 (hrx₂.trans hrx₁) with ⟨hcrc, hdup⟩ | ⟨hcrc, hbad⟩
        · exact .inr (.inl ⟨hold, hb, hcrc, hdup⟩)
        · exact .inr (.inr ⟨fun h ↦ hnew h.2.1, fun h ↦ hcrc h.2.2, hbad⟩)
      · refine .inr (.inr ⟨fun h ↦ hnew h.2.1, fun h ↦ hold h.1, ?_⟩)
        have hab' : ¬ b ^^^ a ≠ 0xFF := by rw [BitVec.xor_comm, hab]; simp
        have hnew' : a ≠ high m₁.r2 := by rwa [hstill₁.rh2]
        have hold' : a ≠ high m₁.r2 - 1 := by rwa [hstill₁.rh2]
        rw [hresponse, dispatch]
        simp only [low_word, h6, h3, if_neg hab', if_neg hnew', if_pos hold']
  · obtain ⟨m', hbad, -, -⟩ := dispatch_complement h6 h3 hab
    refine .inr (.inr ⟨fun h ↦ hab (hcomplement.mpr h.2.2.1), fun h ↦ hab (hcomplement.mpr h.2.1), ?_⟩)
    rw [hresponse, hbad]

/-- A packet of 133 bytes taken apart. -/
theorem packet_parts {p : List Byte} (hlen : p.length = 133) (hsoh : p.head? = some soh) :
    ∃ a b c d data, data.length = 128 ∧ (p.drop 3).take 128 = data ∧
      p = soh :: a :: b :: (data ++ [c, d]) ∧
      ∀ n, p = Serial.xmodemPacket n data ↔ a = n ∧ b = 0xFF ^^^ a ∧ [c, d] = crcBytes data := by
  obtain ⟨x, a, b, q, rfl⟩ : ∃ x a b q, p = x :: a :: b :: q := by
    rcases p with _ | ⟨x, _ | ⟨a, _ | ⟨b, q⟩⟩⟩
    · cases hlen
    · cases hlen
    · cases hlen
    · exact ⟨x, a, b, q, rfl⟩
  obtain rfl : x = soh := by simpa using hsoh
  have hq : q.length = 130 := by simpa using hlen
  have htail : (q.drop 128).length = 2 := by simp [hq]
  obtain ⟨c, d, hcd⟩ : ∃ c d, q.drop 128 = [c, d] := List.length_eq_two.mp htail
  obtain ⟨data, rfl, hdata⟩ : ∃ data, q = data ++ [c, d] ∧ data.length = 128 :=
    ⟨q.take 128, by rw [← hcd, List.take_append_drop], by simp [hq]⟩
  refine ⟨a, b, c, d, data, hdata, List.take_left' hdata, rfl, fun n ↦ ?_⟩
  have hpacket : Serial.xmodemPacket n data = soh :: n :: (0xFF ^^^ n) :: (data ++ crcBytes data) := by
    simp [Serial.xmodemPacket, crcBytes]
  rw [hpacket, List.cons.injEq, List.cons.injEq, List.cons.injEq, List.append_right_inj]
  constructor
  · rintro ⟨-, rfl, hb, h⟩
    exact ⟨rfl, hb, h⟩
  · rintro ⟨rfl, hb, h⟩
    exact ⟨rfl, rfl, hb, h⟩

/-- The core takes exactly the packets that the servers build, and a fold of its CRC routine
is the CRC of the servers. -/
theorem receives_exactly_xmodemPacket (m : Cpu) (p : List Byte) (rest : List (Option Byte))
    (hlen : p.length = 133) (hsoh : p.head? = some soh) (hrx : m.rx = p.map some ++ rest) :
    (m.Accepts ((p.drop 3).take 128) ↔
      128 ≤ m.r4.toNat ∧ ServeTape.xmodemPacket (high m.r2) ((p.drop 3).take 128) = some p) ∧
    (m.Repeats ↔ ServeTape.xmodemPacket (high m.r2 - 1) ((p.drop 3).take 128) = some p) ∧
    (m.response.1 = .bad ↔
      ¬ (128 ≤ m.r4.toNat ∧ ServeTape.xmodemPacket (high m.r2) ((p.drop 3).take 128) = some p) ∧
      ¬ ServeTape.xmodemPacket (high m.r2 - 1) ((p.drop 3).take 128) = some p) ∧
    (∀ n, ServeTape.xmodemPacket n ((p.drop 3).take 128) =
      some (ServeSadie.xmodemPacket n ((p.drop 3).take 128))) ∧
    ∀ (m : Cpu) (bytes : List Byte),
      (m.crcBytesFrom bytes).r1.toNat = ServeTape.crc16Xmodem bytes ∧
      (m.crcBytesFrom bytes).r1.toNat = ServeSadie.crc16Xmodem bytes := by
  have hcrc : ∀ (m : Cpu) (bytes : List Byte),
      (m.crcBytesFrom bytes).r1.toNat = ServeTape.crc16Xmodem bytes := fun m bytes ↦ by
    rw [crcBytesFrom_r1, crc16Xmodem_toNat]
  obtain ⟨a, b, c, d, data, hdata, hslice, hp, hpacket⟩ := packet_parts hlen hsoh
  rw [hslice]
  have htape : ∀ n, ServeTape.xmodemPacket n data = some p ↔
      a = n ∧ b = 0xFF ^^^ a ∧ [c, d] = crcBytes data := fun n ↦ by
    rw [serveTape_xmodemPacket n hdata, Option.some.injEq, eq_comm]
    exact hpacket n
  have hrx' : m.rx =
      some soh :: some a :: some b :: (data.map some ++ some c :: some d :: rest) := by
    rw [hrx, hp]
    simp
  have hsadie : ∀ n, ServeTape.xmodemPacket n data = some (ServeSadie.xmodemPacket n data) :=
    fun n ↦ by rw [serveTape_xmodemPacket n hdata, serveSadie_xmodemPacket n hdata]
  rw [htape, htape]
  rcases response_cases hdata hrx' with ⟨h4, ha, hb, hcd, hacc⟩ | ⟨ha, hb, hcd, hrep⟩ | ⟨hnew, hold, hbad⟩
  · have hold : a ≠ high m.r2 - 1 := by
      rw [ha]
      bv_omega
    have hexit : m.response.1 = .valid := by
      obtain ⟨m', h, -⟩ := hacc
      rw [h]
    have hrep : ¬ m.Repeats := by
      rintro ⟨m', h, -⟩
      rw [h] at hexit
      cases hexit
    refine ⟨⟨fun _ ↦ ⟨h4, ha, hb, hcd⟩, fun _ ↦ hacc⟩, ⟨fun h ↦ absurd h hrep, fun h ↦ absurd h.1 hold⟩,
      ⟨fun h ↦ ?_, fun h ↦ absurd ⟨h4, ha, hb, hcd⟩ h.1⟩, hsadie, fun m bytes ↦ ⟨hcrc m bytes, hcrc m bytes⟩⟩
    rw [hexit] at h
    cases h
  · have hnew : a ≠ high m.r2 := by
      rw [ha]
      bv_omega
    have hexit : m.response.1 = .duplicate := by
      obtain ⟨m', h, -⟩ := hrep
      rw [h]
    have hacc : ¬ m.Accepts data := by
      rintro ⟨m', h, -⟩
      rw [h] at hexit
      cases hexit
    refine ⟨⟨fun h ↦ absurd h hacc, fun h ↦ absurd h.2.1 hnew⟩, ⟨fun _ ↦ ⟨ha, hb, hcd⟩, fun _ ↦ hrep⟩,
      ⟨fun h ↦ ?_, fun h ↦ absurd ⟨ha, hb, hcd⟩ h.2⟩, hsadie, fun m bytes ↦ ⟨hcrc m bytes, hcrc m bytes⟩⟩
    rw [hexit] at h
    cases h
  · have hacc : ¬ m.Accepts data := by
      rintro ⟨m', h, -⟩
      rw [h] at hbad
      cases hbad
    have hrep : ¬ m.Repeats := by
      rintro ⟨m', h, -⟩
      rw [h] at hbad
      cases hbad
    exact ⟨⟨fun h ↦ absurd h hacc, fun h ↦ absurd h hnew⟩, ⟨fun h ↦ absurd h hrep, fun h ↦ absurd h hold⟩,
      ⟨fun _ ↦ ⟨hnew, hold⟩, fun _ ↦ hbad⟩, hsadie, fun m bytes ↦ ⟨hcrc m bytes, hcrc m bytes⟩⟩

theorem slice_xmodemPacket (n : Byte) (h : data.length = 128) :
    ((Serial.xmodemPacket n data).drop 3).take 128 = data := by
  have hdrop : (Serial.xmodemPacket n data).drop 3 = data ++ crcBytes data := by
    simp [Serial.xmodemPacket, crcBytes]
  rw [hdrop]
  exact List.take_left' h

/-- A machine that waits for block 0, behind block 255, and the packet with it. -/
def wrapped : Cpu where
  r4 := 128
  mem := fun _ ↦ 0
  rx := (Serial.xmodemPacket 0 (List.replicate 128 0)).map some ++ []

theorem receives_exactly_wrapped : wrapped.Accepts (List.replicate 128 0) := by
  have hlen : (Serial.xmodemPacket 0 (List.replicate 128 0)).length = 133 := by
    simp [Serial.xmodemPacket]
  have hslice := slice_xmodemPacket 0 (List.length_replicate (n := 128) (a := (0 : Byte)))
  have h := (receives_exactly_xmodemPacket wrapped _ [] hlen rfl rfl).1.mpr
  rw [hslice] at h
  exact h ⟨by decide, serveTape_xmodemPacket 0 List.length_replicate⟩

end Cpu

end S8000.Serial
