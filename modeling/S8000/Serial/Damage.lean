import S8000.Serial.Receiver

namespace S8000.Serial

open Foundation Foundation.Bytes

def crcBytes (data : List Byte) : List Byte := [high (crc16Xmodem data), low (crc16Xmodem data)]

/-- What may arrive of a packet whose damage the receiver detects: the rest of it is lost or late,
the block number and its complement do not match, or the data and the remainder do not. -/
inductive Damaged (p : List Byte) : List (Option Byte) → Prop
  | cut {d : List Byte} : d.take 3 <+: p → d.length < p.length → Damaged p (d.map some)
  | pause {d : List Byte} (late : List Byte) :
    d <+: p → d.length < p.length → Damaged p (d.map some ++ none :: late.map some)
  | complement {a b : Byte} (rest : List Byte) :
    a ^^^ b ≠ 0xFF → Damaged p ((soh :: a :: b :: rest).map some)
  | crc {d : List Byte} : d.take 3 = p.take 3 → d.length = p.length →
    d.drop 131 ≠ crcBytes ((d.drop 3).take 128) → Damaged p (d.map some)

/-- What becomes of a transmission, and whether the answer to it is lost. -/
structure Fate where
  events : List (Option Byte)
  lost : Bool

/-- The receiver finds the damage before it has stored a data byte. -/
def Early : List (Option Byte) → Prop
  | some _ :: some a :: some b :: rest => a ^^^ b ≠ 0xFF ∨ Cpu.Pause rest
  | _ => True

/-- What follows an intact header does not complete the packet. -/
inductive Broken (payload : List Byte) : List Byte → List (Option Byte) → Prop
  | cut {body : List Byte} : body.length < 130 → Broken payload body []
  | pause {body : List Byte} (late : List Byte) : body <+: payload ++ crcBytes payload →
    body.length < 130 → Broken payload body (none :: late.map some)
  | crc {body : List Byte} : body.length = 130 → body.drop 128 ≠ crcBytes (body.take 128) →
    Broken payload body []

theorem none_not_mem_map_some (bytes : List Byte) : none ∉ bytes.map some := by simp

namespace Broken

variable {payload body : List Byte} {rest : List (Option Byte)}

theorem pause_rest (h : Broken payload body rest) : Cpu.Pause rest := by
  cases h <;> trivial

theorem none_not_mem_tail (h : Broken payload body rest) : none ∉ rest.tail := by
  cases h with
  | cut => simp
  | pause late => exact none_not_mem_map_some late
  | crc => simp

end Broken

namespace Cpu

variable {m : Cpu} {payload body : List Byte} {rest : List (Option Byte)}

/-- The remainder of a packet that is not complete. -/
theorem checkCrc_broken (proceed : Cpu → Exit × Cpu) (hpay : payload.length = 128)
    (h : Broken payload body rest) (hbody : 128 ≤ body.length)
    (hr1 : m.r1 = crc16Xmodem (body.take 128)) (hrx : m.rx = (body.drop 128).map some ++ rest) :
    ∃ m', m.checkCrc proceed = (.bad, m') ∧ Still m m' ∧ none ∉ m'.rx := by
  -- Without a pause it does not matter which of the bytes is found wrong.
  have hbad : rest = [] → body.length ≤ 130 → body.drop 128 ≠ crcBytes (body.take 128) →
      ∃ m', m.checkCrc proceed = (.bad, m') ∧ Still m m' ∧ none ∉ m'.rx := by
    intro hrest hlen hne
    have hrx' : m.rx = (body.drop 128).map some := by rw [hrx, hrest, List.append_nil]
    have hdiff : ∀ tail, m.rx ≠ some (high m.r1) :: some (low m.r1) :: tail := by
      intro tail htail
      have hlen' := congrArg List.length htail
      rw [hrx', List.length_map, List.length_drop] at hlen'
      obtain rfl : tail = [] := by
        apply List.eq_nil_of_length_eq_zero
        simp only [List.length_cons] at hlen'
        omega
      apply hne
      apply List.map_injective_iff.mpr (Option.some_injective Byte)
      rw [← hrx', htail, hr1]
      rfl
    obtain ⟨m', hcheck, hstill, hsub⟩ := checkCrc_bad (k := proceed) hdiff
    refine ⟨m', hcheck, hstill, fun hmem ↦ ?_⟩
    exact none_not_mem_map_some _ (hrx' ▸ hsub _ hmem)
  cases h with
  | cut hlen =>
    refine hbad rfl hlen.le fun heq ↦ ?_
    have hl := congrArg List.length heq
    simp only [List.length_drop, crcBytes, List.length_cons, List.length_nil] at hl
    omega
  | pause late hpre hlen =>
    obtain ⟨got, rfl⟩ : ∃ got, body = payload ++ got := by
      refine ⟨body.drop 128, ?_⟩
      have htake : body.take 128 = payload := by
        obtain ⟨tail, htail⟩ := hpre
        have h128 := congrArg (List.take 128) htail
        rwa [List.take_append_of_le_length hbody, List.take_append_of_le_length hpay.ge,
          List.take_of_length_le hpay.le] at h128
      rw [← htake, List.take_append_drop]
    have hgot : got = [] ∨ got = [high m.r1] := by
      rw [List.take_append_of_le_length hpay.ge, List.take_of_length_le hpay.le] at hr1
      rw [List.prefix_append_right_inj] at hpre
      rw [List.length_append] at hlen
      rcases got with _ | ⟨x, _ | ⟨y, got⟩⟩
      · exact .inl rfl
      · rw [crcBytes, List.cons_prefix_cons] at hpre
        exact .inr (by rw [hpre.1, hr1])
      · simp only [List.length_cons] at hlen
        omega
    rw [List.drop_append_of_le_length hpay.ge, List.drop_of_length_le hpay.le,
      List.nil_append] at hrx
    obtain ⟨m', hcheck, hstill, hrest⟩ := checkCrc_pause (k := proceed) hrx trivial hgot
    refine ⟨m', hcheck, hstill, ?_⟩
    rw [hrest]
    exact none_not_mem_map_some late
  | crc hlen hne => exact hbad rfl hlen.le hne

/-- A new block that does not arrive whole: the data bytes that came have been stored, and `r5`
stays behind them. -/
theorem copy_broken (hpay : payload.length = 128) (h : Broken payload body rest) (hr1 : m.r1 = 0)
    (hrx : m.rx = body.map some ++ rest) :
    ∃ m', copy 128 m = (.bad, m') ∧ Frame m m' ∧ none ∉ m'.rx ∧
      m'.mem = m.mem.storeList m.r5 (body.take 128) ∧
      m'.r5 = m.r5 + BitVec.ofNat 16 (body.take 128).length := by
  by_cases hbody : body.length < 128
  · obtain ⟨k, hk⟩ : ∃ k, 128 = k + 1 + body.length := ⟨127 - body.length, by omega⟩
    obtain ⟨m₁, hcopy, hframe, hrx₁, hmem, hr5, -⟩ := copy_bytes body rest (k + 1) m hrx
    obtain ⟨m', hbad, hstill, hrest⟩ := copy_pause (hrx₁ ▸ h.pause_rest) k
    rw [← hk] at hcopy
    rw [List.take_of_length_le hbody.le]
    refine ⟨m', hcopy.trans hbad, hframe.trans hstill.toFrame, ?_, hstill.mem.trans hmem,
      hstill.r5.trans hr5⟩
    rw [hrest, hrx₁]
    exact h.none_not_mem_tail
  · have hbody' : 128 ≤ body.length := by omega
    have hlen : (body.take 128).length = 128 := by rw [List.length_take]; omega
    have hrx' : m.rx = (body.take 128).map some ++ ((body.drop 128).map some ++ rest) := by
      rw [hrx, ← List.append_assoc, ← List.map_append, List.take_append_drop]
    obtain ⟨m₁, hcopy, hframe, hrx₁, hmem, hr5, hr1₁⟩ := copy_bytes _ _ 0 m hrx'
    have hcrc : m₁.r1 = crc16Xmodem (body.take 128) := by rw [hr1₁, hr1]; rfl
    obtain ⟨m', hcheck, hstill, hnone⟩ :=
      checkCrc_broken (fun m ↦ (.valid, m)) hpay h hbody' hcrc hrx₁
    have hcopy' : copy 128 m = copy 0 m₁ := by rwa [hlen, Nat.zero_add] at hcopy
    exact ⟨m', hcopy'.trans hcheck, hframe.trans hstill.toFrame, hnone, hstill.mem.trans hmem,
      hstill.r5.trans hr5⟩

/-- A repeated block that does not arrive whole. -/
theorem discard_broken (hpay : payload.length = 128) (h : Broken payload body rest)
    (hr1 : m.r1 = 0) (hrx : m.rx = body.map some ++ rest) :
    ∃ m', discard 128 m = (.bad, m') ∧ Still m m' ∧ none ∉ m'.rx := by
  by_cases hbody : body.length < 128
  · obtain ⟨k, hk⟩ : ∃ k, 128 = k + 1 + body.length := ⟨127 - body.length, by omega⟩
    obtain ⟨m₁, hdiscard, hstill₁, hrx₁, -⟩ := discard_bytes body rest (k + 1) m hrx
    obtain ⟨m', hbad, hstill, hrest⟩ := discard_pause (hrx₁ ▸ h.pause_rest) k
    rw [← hk] at hdiscard
    refine ⟨m', hdiscard.trans hbad, hstill₁.trans hstill, ?_⟩
    rw [hrest, hrx₁]
    exact h.none_not_mem_tail
  · have hbody' : 128 ≤ body.length := by omega
    have hlen : (body.take 128).length = 128 := by rw [List.length_take]; omega
    have hrx' : m.rx = (body.take 128).map some ++ ((body.drop 128).map some ++ rest) := by
      rw [hrx, ← List.append_assoc, ← List.map_append, List.take_append_drop]
    obtain ⟨m₁, hdiscard, hstill₁, hrx₁, hr1₁⟩ := discard_bytes _ _ 0 m hrx'
    have hcrc : m₁.r1 = crc16Xmodem (body.take 128) := by rw [hr1₁, hr1]; rfl
    obtain ⟨m', hcheck, hstill, hnone⟩ := checkCrc_broken _ hpay h hbody' hcrc hrx₁
    rw [hlen, Nat.zero_add] at hdiscard
    exact ⟨m', hdiscard.trans hcheck, hstill₁.trans hstill, hnone⟩

end Cpu

/-- Damage before, in or behind the header. -/
theorem Damaged.cases {n : Byte} {payload : List Byte} (hpay : payload.length = 128)
    {events : List (Option Byte)} (h : Damaged (xmodemPacket n payload) events) :
    (∃ (got : List Byte) (rest : List (Option Byte)), events = got.map some ++ rest ∧ Cpu.Pause rest ∧ got.length < 3 ∧
        got.take 1 <+: [soh] ∧ none ∉ rest.tail) ∨
      (∃ (a b : Byte) (rest : List Byte), events = some soh :: some a :: some b :: rest.map some ∧
        a ^^^ b ≠ 0xFF) ∨
      ∃ (body : List Byte) (rest : List (Option Byte)),
        events = some soh :: some n :: some (0xFF ^^^ n) :: (body.map some ++ rest) ∧
        Broken payload body rest := by
  have hp : xmodemPacket n payload =
      soh :: n :: (0xFF ^^^ n) :: (payload ++ crcBytes payload) := by
    simp [xmodemPacket, crcBytes]
  have hplen : (xmodemPacket n payload).length = 133 := by
    simp [hp, hpay, crcBytes]
  -- An intact header or less than one.
  have hsplit : ∀ d : List Byte, d.take 3 <+: xmodemPacket n payload →
      (d.length < 3 ∧ d.take 1 <+: [soh]) ∨ ∃ body, d = soh :: n :: (0xFF ^^^ n) :: body := by
    intro d hd
    rw [hp] at hd
    rcases d with _ | ⟨x, _ | ⟨y, _ | ⟨z, body⟩⟩⟩
    · simp
    · simp_all
    · simp_all
    · simp_all
  cases h with
  | @cut d hd hlen =>
    rcases hsplit d hd with ⟨h3, h1⟩ | ⟨body, rfl⟩
    · exact .inl ⟨d, [], by simp, trivial, h3, h1, by simp⟩
    · refine .inr (.inr ⟨body, [], by simp, .cut ?_⟩)
      simp only [hplen, List.length_cons] at hlen
      omega
  | @pause d late hd hlen =>
    rcases hsplit d ((List.take_prefix 3 d).trans hd) with ⟨h3, h1⟩ | ⟨body, rfl⟩
    · exact .inl ⟨d, _, rfl, trivial, h3, h1, none_not_mem_map_some late⟩
    · refine .inr (.inr ⟨body, _, by simp, .pause late ?_ ?_⟩)
      · rw [hp] at hd
        simpa using hd
      · simp only [hplen, List.length_cons] at hlen
        omega
  | @complement a b rest hab => exact .inr (.inl ⟨a, b, rest, by simp, hab⟩)
  | @crc d hd hlen hne =>
    rcases hsplit d (hd ▸ List.take_prefix 3 _) with ⟨h3, -⟩ | ⟨body, rfl⟩
    · omega
    · refine .inr (.inr ⟨body, [], by simp, .crc ?_ ?_⟩)
      · simp only [hplen, List.length_cons] at hlen
        omega
      · exact hne

namespace Cpu

variable {m : Cpu} {n : Byte} {payload : List Byte}

theorem number_xor_complement (n : Byte) : n ^^^ (0xFF ^^^ n) = 0xFF := by
  rw [BitVec.xor_comm, BitVec.xor_assoc, BitVec.xor_self, BitVec.xor_zero]

theorem map_xmodemPacket (n : Byte) (payload : List Byte) :
    (xmodemPacket n payload).map some = some soh :: some n :: some (0xFF ^^^ n) ::
      (payload.map some ++ [some (high (crc16Xmodem payload)), some (low (crc16Xmodem payload))]) := by
  simp [xmodemPacket]

/-- The data of the expected block arrives and is stored. -/
theorem response_stores {rest : List (Option Byte)} (hpay : payload.length = 128)
    (hrx : m.rx = some soh :: some n :: some (0xFF ^^^ n) :: (payload.map some ++ rest)) (hn : n = high m.r2)
    (h4 : 128 ≤ m.r4.toNat) :
    ∃ m', m.response = copy 0 m' ∧ Frame m m' ∧ m'.rx = rest ∧ m'.mem = m.mem.storeList m.r5 payload ∧
      m'.r5 = m.r5 + 128 ∧ m'.r1 = crc16Xmodem payload := by
  obtain ⟨m₁, hresponse, hstill₁, hrx₁, h6, h3⟩ := response_header hrx
  obtain ⟨m₂, hdispatch, hstill₂, hrx₂, hr1₂⟩ := dispatch_new h6 h3 (number_xor_complement n)
    (hn.trans hstill₁.rh2.symm) (by rwa [hstill₁.r4])
  rw [hrx₁] at hrx₂
  obtain ⟨m₃, hcopy, hframe₃, hrx₃, hmem₃, hr5₃, hr1₃⟩ := copy_bytes _ _ 0 m₂ hrx₂
  have hstill := hstill₁.trans hstill₂
  rw [hpay, Nat.zero_add] at hcopy
  refine ⟨m₃, (hresponse.trans hdispatch).trans hcopy, hstill.toFrame.trans hframe₃, hrx₃, ?_, ?_, ?_⟩
  · rw [hmem₃, hstill.mem, hstill.r5]
  · rw [hr5₃, hstill.r5, hpay]
    rfl
  · rw [hr1₃, hr1₂]
    rfl

/-- The expected block arrives. -/
theorem response_new (hpay : payload.length = 128)
    (hrx : m.rx = (xmodemPacket n payload).map some) (hn : n = high m.r2)
    (h4 : 128 ≤ m.r4.toNat) :
    ∃ m', m.response = (.valid, m') ∧ Frame m m' ∧ m'.rx = [] ∧
      m'.mem = m.mem.storeList m.r5 payload ∧ m'.r5 = m.r5 + 128 := by
  rw [map_xmodemPacket] at hrx
  obtain ⟨m₁, hresponse, hframe₁, hrx₁, hmem₁, hr5₁, hcrc⟩ := response_stores hpay hrx hn h4
  rw [← hcrc] at hrx₁
  obtain ⟨m', hcheck, hstill', hrx'⟩ := checkCrc_good (k := fun m ↦ (.valid, m)) hrx₁
  refine ⟨m', hresponse.trans hcheck, hframe₁.trans hstill'.toFrame, hrx', ?_, ?_⟩
  · rw [hstill'.mem, hmem₁]
  · rw [hstill'.r5, hr5₁]

/-- The preceding block arrives once more: it is acknowledged and not stored. -/
theorem response_old (hpay : payload.length = 128)
    (hrx : m.rx = (xmodemPacket n payload).map some) (hn : n + 1 = high m.r2) :
    ∃ m₁, Still m m₁ ∧ m₁.rx = [] ∧ m.response =
      (.duplicate, { m₁.putByte ack with r3 := word 0 (low (m₁.putByte ack).r3) }) := by
  rw [map_xmodemPacket] at hrx
  obtain ⟨m₁, hresponse, hstill₁, hrx₁, h6, h3⟩ := response_header hrx
  obtain ⟨m₂, hdispatch, hstill₂, hrx₂, hr1₂⟩ := dispatch_old h6 h3 (number_xor_complement n)
    (hn.trans hstill₁.rh2.symm)
  rw [hrx₁] at hrx₂
  obtain ⟨m₃, hdiscard, hstill₃, hrx₃, hr1₃⟩ := discard_bytes _ _ 0 m₂ hrx₂
  have hcrc : m₃.r1 = crc16Xmodem payload := by rw [hr1₃, hr1₂]; rfl
  rw [← hcrc] at hrx₃
  rw [hpay, Nat.zero_add] at hdiscard
  obtain ⟨m', hcheck, hstill', hrx'⟩ := checkCrc_good hrx₃
  exact ⟨m', ((hstill₁.trans hstill₂).trans hstill₃).trans hstill', hrx',
    (hresponse.trans hdispatch).trans (hdiscard.trans hcheck)⟩

/-- The expected block does not arrive whole behind its header. -/
theorem response_broken {body : List Byte} {rest : List (Option Byte)} (hpay : payload.length = 128)
    (hbroken : Broken payload body rest)
    (hrx : m.rx = some soh :: some n :: some (0xFF ^^^ n) :: (body.map some ++ rest))
    (hn : n = high m.r2) (h4 : 128 ≤ m.r4.toNat) :
    ∃ m', m.response = (.bad, m') ∧ Frame m m' ∧ none ∉ m'.rx ∧
      m'.mem = m.mem.storeList m.r5 (body.take 128) ∧
      m'.r5 = m.r5 + BitVec.ofNat 16 (body.take 128).length := by
  obtain ⟨m₁, hresponse, hstill₁, hrx₁, h6, h3⟩ := response_header hrx
  obtain ⟨m₂, hdispatch, hstill₂, hrx₂, hr1₂⟩ := dispatch_new h6 h3 (number_xor_complement n)
    (hn.trans hstill₁.rh2.symm) (by rwa [hstill₁.r4])
  have hstill := hstill₁.trans hstill₂
  obtain ⟨m', hbad, hframe, hnone, hmem, hr5⟩ :=
    copy_broken hpay hbroken hr1₂ (hrx₂.trans hrx₁)
  refine ⟨m', (hresponse.trans hdispatch).trans hbad, hstill.toFrame.trans hframe, hnone, ?_, ?_⟩
  · rw [hmem, hstill.mem, hstill.r5]
  · rw [hr5, hstill.r5]

/-- A damaged transmission of the expected block or of the one before it; `data` is what the
receiver has stored of it. -/
theorem response_damaged (hpay : payload.length = 128)
    (hrx : Damaged (xmodemPacket n payload) m.rx)
    (hn : (n = high m.r2 ∧ 128 ≤ m.r4.toNat) ∨ n + 1 = high m.r2) :
    ∃ m' data, m.response = (.bad, m') ∧ Frame m m' ∧ none ∉ m'.rx ∧
      m'.mem = m.mem.storeList m.r5 data ∧ m'.r5 = m.r5 + BitVec.ofNat 16 data.length ∧
      data.length ≤ 128 ∧ (n + 1 = high m.r2 ∨ Early m.rx → data = []) := by
  have hstill_spec : ∀ m', m.response = (.bad, m') → Still m m' → none ∉ m'.rx →
      ∃ m' data, m.response = (.bad, m') ∧ Frame m m' ∧ none ∉ m'.rx ∧
        m'.mem = m.mem.storeList m.r5 data ∧ m'.r5 = m.r5 + BitVec.ofNat 16 data.length ∧
        data.length ≤ 128 ∧ (n + 1 = high m.r2 ∨ Early m.rx → data = []) := by
    intro m' hbad hstill hnone
    exact ⟨m', [], hbad, hstill.toFrame, hnone, hstill.mem,
      hstill.r5.trans (BitVec.add_zero _).symm, by simp, fun _ ↦ rfl⟩
  rcases hrx.cases hpay with ⟨got, rest, hev, hp, h3, h1, hnone⟩ | ⟨a, b, rest, hev, hab⟩ |
    ⟨body, rest, hev, hbroken⟩
  · obtain ⟨m', hbad, hstill, hrest⟩ := response_pause hev hp h3 h1
    exact hstill_spec m' hbad hstill (hrest ▸ hnone)
  · obtain ⟨m₁, hresponse, hstill₁, hrx₁, h6, h3⟩ := response_header hev
    obtain ⟨m', hbad, hstill, hrest⟩ := dispatch_complement h6 h3 hab
    refine hstill_spec m' (hresponse.trans hbad) (hstill₁.trans hstill) ?_
    rw [hrest, hrx₁]
    exact none_not_mem_map_some rest
  · rcases hn with ⟨hn, h4⟩ | hn
    · obtain ⟨m', hbad, hframe, hnone, hmem, hr5⟩ := response_broken hpay hbroken hev hn h4
      refine ⟨m', body.take 128, hbad, hframe, hnone, hmem, hr5, ?_, ?_⟩
      · rw [List.length_take]
        exact Nat.min_le_left _ _
      · rintro (hn' | hearly)
        · exfalso
          rw [← hn] at hn'
          bv_omega
        · rw [hev] at hearly
          rcases hearly with hne | hp
          · exact absurd (number_xor_complement n) hne
          · cases body with
            | nil => rfl
            | cons b body => exact hp.elim
    · obtain ⟨m₁, hresponse, hstill₁, hrx₁, h6, h3⟩ := response_header hev
      obtain ⟨m₂, hdispatch, hstill₂, hrx₂, hr1₂⟩ := dispatch_old h6 h3 (number_xor_complement n)
        (hn.trans hstill₁.rh2.symm)
      obtain ⟨m', hbad, hstill, hnone⟩ := discard_broken hpay hbroken hr1₂ (hrx₂.trans hrx₁)
      exact hstill_spec m' ((hresponse.trans hdispatch).trans hbad)
        ((hstill₁.trans hstill₂).trans hstill) hnone

/-- Nothing arrives. -/
theorem response_silence (hrx : m.rx = []) :
    ∃ m', m.response = (.bad, m') ∧ Still m m' ∧ m'.rx = [] := by
  have hrx' : m.rx = List.map some [] ++ [] := hrx
  exact response_pause hrx' trivial (by simp) (by simp)

theorem response_eot (hrx : m.rx = [some Serial.eot]) :
    ∃ m', m.response = (.eot, m') ∧ Still m m' ∧ m'.rx = [] := by
  obtain ⟨h0, h3, hrx', -, -⟩ := getByte_some_spec hrx
  refine ⟨m.getByte, ?_, m.getByte_still, hrx'⟩
  rw [response]
  simp only [if_neg h0, h3, if_true]

theorem response_can (hrx : m.rx = [some can]) :
    ∃ m', m.response = (.error, m') ∧ Still m m' ∧ m'.rx = [] := by
  have hne : can ≠ Serial.eot := by decide
  obtain ⟨h0, h3, hrx', -, -⟩ := getByte_some_spec hrx
  refine ⟨m.getByte, ?_, m.getByte_still, hrx'⟩
  rw [response]
  simp only [if_neg h0, h3, if_neg hne, if_true]

end Cpu

end S8000.Serial
