import S8000.Foundation.BitErrors
import S8000.Serial.Damage

namespace S8000.Serial

open Function Foundation Foundation.Bytes Foundation.Remainder Foundation.BitErrors

/-- `x^15 + x^14 + x^13 + x^12 + x^4 + x^3 + x^2 + x + 1`, the other factor beside `x + 1`, is
primitive. -/
theorem minimalPeriod_xmodem : minimalPeriod (shift 0x1021#16) 1#16 = 32767 :=
  minimalPeriod_shift_one 0x1021#16 (by decide +kernel) (by decide +kernel) (by decide +kernel)
    (by decide +kernel)

theorem crc16Xmodem_eq (body : List Byte) :
    crc16Xmodem body = remainder 0x1021#16 0#16 body := rfl

theorem crc16Xmodem_errors {e : List Byte} (hlen : e.length ≤ 4095) (hne : ∃ b ∈ e, b ≠ 0)
    (hshape : Shape 16 (setBits e)) : crc16Xmodem e ≠ 0#16 := by
  have hvalue : value 0x1021#16 (setBits e) ≠ 0#16 := by
    refine value_ne_zero (by decide) (by decide) (by decide) (nodup_setBits e) ?_ ?_ hshape
    · intro hnil
      obtain ⟨b, hb, hb0⟩ := hne
      exact hb0 (setBits_eq_nil hnil b hb)
    · intro d hd
      have := setBits_lt hd
      rw [minimalPeriod_xmodem]
      omega
  intro h
  rw [crc16Xmodem_eq, remainder_eq_value (by decide), ← iterate_shift_zero 0x1021#16 16] at h
  exact hvalue ((shift_injective (by decide)).iterate 16 h)

/-- Two strings differ by the bits that are set in their exclusive or. -/
def difference (x y : List Byte) : List Byte := List.zipWith (· ^^^ ·) x y

theorem difference_ne_zero {x y : List Byte} (hlen : x.length = y.length) (hne : x ≠ y) :
    ∃ b ∈ difference x y, b ≠ 0 := by
  by_contra hzero
  push Not at hzero
  apply hne
  refine List.ext_getElem hlen fun i hx hy ↦ ?_
  have hi : i < (difference x y).length := by
    rw [difference, List.length_zipWith, ← hlen, Nat.min_self]
    exact hx
  have hxy := hzero _ (List.getElem_mem hi)
  simp only [difference, List.getElem_zipWith] at hxy
  exact BitVec.xor_eq_zero_iff.mp hxy

/-- Data and remainder belong together exactly when nothing is left of them. -/
theorem crc16Xmodem_eq_zero_iff {body : List Byte} (hlen : body.length = 130) :
    crc16Xmodem body = 0#16 ↔ body.drop 128 = crcBytes (body.take 128) := by
  obtain ⟨h, l, hdrop⟩ : ∃ h l, body.drop 128 = [h, l] := by
    refine List.length_eq_two.mp ?_
    rw [List.length_drop, hlen]
  have hword : [h, l] = [high (word h l), low (word h l)] := by rw [high_word, low_word]
  have hsplit : crc16Xmodem body =
      (shift 0x1021#16)^[16] (crc16Xmodem (body.take 128) ^^^ word h l) := by
    conv_lhs => rw [← List.take_append_drop 128 body]
    rw [crc16Xmodem_eq, remainder_append, hdrop, hword, remainder_word]
    rfl
  have hzero : (shift 0x1021#16)^[16] 0#16 = 0#16 := iterate_shift_zero _ 16
  constructor
  · intro hleft
    have heq : crc16Xmodem (body.take 128) = word h l := by
      rw [hsplit, ← hzero] at hleft
      exact BitVec.xor_eq_zero_iff.mp ((shift_injective (by decide)).iterate 16 hleft)
    rw [hdrop, crcBytes, heq, ← hword]
  · intro heq
    rw [hdrop, crcBytes] at heq
    simp only [List.cons.injEq, and_true] at heq
    rw [hsplit, heq.1, heq.2, word_high_low, BitVec.xor_self, hzero]

theorem crc16Xmodem_difference {x y : List Byte} (hlen : x.length = y.length) :
    crc16Xmodem (difference x y) = crc16Xmodem x ^^^ crc16Xmodem y :=
  remainder_zipWith_xor 0x1021#16 0#16 0#16 x y hlen

namespace Cpu

variable {m : Cpu} {n : Byte} {body : List Byte} {rest : List (Option Byte)}

/-- A block number that is neither expected nor the one before. -/
theorem dispatch_other {a b : Byte} (h6 : high m.r6 = a) (h3 : low m.r3 = b)
    (hnew : a ≠ high m.r2) (hold : a + 1 ≠ high m.r2) :
    ∃ m', m.dispatch = (.bad, m') ∧ Still m m' := by
  have hpred : a ≠ high m.r2 - 1 := by
    intro h
    exact hold (by rw [h, BitVec.sub_add_cancel])
  rw [dispatch]
  simp only [low_word, h6, h3, if_neg hnew, if_pos hpred]
  split
  · exact ⟨_, rfl, ⟨⟨rfl, rfl, rfl, rfl, high_word _ _, rfl⟩, rfl, rfl⟩⟩
  · exact ⟨_, rfl, ⟨⟨rfl, rfl, rfl, rfl, high_word _ _, rfl⟩, rfl, rfl⟩⟩

theorem checkCrc_mismatch (k : Cpu → Exit × Cpu) (hlen : body.length = 130)
    (hne : body.drop 128 ≠ crcBytes (body.take 128)) (hr1 : m.r1 = crc16Xmodem (body.take 128))
    (hrx : m.rx = (body.drop 128).map some ++ rest) :
    ∃ m', m.checkCrc k = (.bad, m') ∧ Still m m' := by
  have hdiff : ∀ tail, m.rx ≠ some (high m.r1) :: some (low m.r1) :: tail := by
    intro tail htail
    obtain ⟨h, l, hdrop⟩ : ∃ h l, body.drop 128 = [h, l] := by
      refine List.length_eq_two.mp ?_
      rw [List.length_drop, hlen]
    rw [hrx, hdrop, hr1] at htail
    simp only [List.map_cons, List.map_nil, List.cons_append, List.nil_append, List.cons.injEq,
      Option.some.injEq] at htail
    exact hne (by rw [hdrop, htail.1, htail.2.1, crcBytes])
  obtain ⟨m', hbad, hstill, -⟩ := checkCrc_bad (k := k) hdiff
  exact ⟨m', hbad, hstill⟩

/-- Whatever block the receiver waits for, it refuses data that its remainder does not match. -/
theorem response_mismatch (hlen : body.length = 130)
    (hne : body.drop 128 ≠ crcBytes (body.take 128))
    (hrx : m.rx = ([soh, n, 0xFF ^^^ n] ++ body).map some ++ rest) :
    m.response.1 = .bad ∧ m.response.2.tx = m.tx := by
  have hrx' : m.rx = some soh :: some n :: some (0xFF ^^^ n) :: (body.map some ++ rest) := by
    rw [hrx]
    simp
  have hbody : body.map some ++ rest =
      (body.take 128).map some ++ ((body.drop 128).map some ++ rest) := by
    rw [← List.append_assoc, ← List.map_append, List.take_append_drop]
  have hdata : (body.take 128).length = 128 := by rw [List.length_take, hlen]; rfl
  obtain ⟨m₁, hresponse, hstill₁, hrx₁, h6, h3⟩ := response_header hrx'
  rw [hbody] at hrx₁
  by_cases hnew : n = high m.r2
  · by_cases h4 : 128 ≤ m.r4.toNat
    · obtain ⟨m₂, hdispatch, hstill₂, hrx₂, hr1₂⟩ := dispatch_new h6 h3 (number_xor_complement n)
        (hnew.trans hstill₁.rh2.symm) (by rwa [hstill₁.r4])
      obtain ⟨m₃, hcopy, hframe₃, hrx₃, -, -, hr1₃⟩ := copy_bytes _ _ 0 m₂ (hrx₂.trans hrx₁)
      obtain ⟨m', hcheck, hstill'⟩ := checkCrc_mismatch (fun m ↦ (.valid, m)) hlen hne
        (by rw [hr1₃, hr1₂]; rfl) hrx₃
      rw [hdata, Nat.zero_add] at hcopy
      have hall := (hresponse.trans hdispatch).trans (hcopy.trans hcheck)
      rw [hall]
      exact ⟨rfl, hstill'.tx.trans (hframe₃.tx.trans (hstill₁.trans hstill₂).tx)⟩
    · have h4' : m₁.r4.toNat < 128 := by rw [hstill₁.r4]; omega
      have hfull : ¬ (0xFF ^^^ n) ^^^ n ≠ 0xFF := by
        rw [BitVec.xor_assoc, BitVec.xor_self]
        simp
      have hnew₁ : n = high m₁.r2 := hnew.trans hstill₁.rh2.symm
      rw [hresponse, dispatch]
      simp only [low_word, h6, h3, if_neg hfull, if_pos hnew₁, newBlock, if_pos h4', true_and]
      exact hstill₁.tx
  · by_cases hold : n + 1 = high m.r2
    · obtain ⟨m₂, hdispatch, hstill₂, hrx₂, hr1₂⟩ := dispatch_old h6 h3 (number_xor_complement n)
        (hold.trans hstill₁.rh2.symm)
      obtain ⟨m₃, hdiscard, hstill₃, hrx₃, hr1₃⟩ := discard_bytes _ _ 0 m₂ (hrx₂.trans hrx₁)
      rw [hdata, Nat.zero_add] at hdiscard
      obtain ⟨m', hcheck, hstill'⟩ := checkCrc_mismatch _ hlen hne (by rw [hr1₃, hr1₂]; rfl) hrx₃
      have hall := (hresponse.trans hdispatch).trans (hdiscard.trans hcheck)
      rw [hall]
      exact ⟨rfl, (((hstill₁.trans hstill₂).trans hstill₃).trans hstill').tx⟩
    · obtain ⟨m', hbad, hstill'⟩ := dispatch_other h6 h3
        (fun h ↦ hnew (h.trans hstill₁.rh2)) (fun h ↦ hold (h.trans hstill₁.rh2))
      rw [hresponse, hbad]
      exact ⟨rfl, (hstill₁.trans hstill').tx⟩

end Cpu

/-- A string the receiver takes for data and remainder, in some state and behind some header. -/
def Accepted (body : List Byte) : Prop :=
  ∃ (m : Cpu) (n : Byte) (rest : List (Option Byte)),
    m.rx = ([soh, n, 0xFF ^^^ n] ++ body).map some ++ rest ∧ m.response.1 ≠ .bad

theorem accepted_packet {payload : List Byte} (hpay : payload.length = 128) :
    Accepted (payload ++ crcBytes payload) := by
  let m : Cpu :=
    { r2 := word 1 0, r4 := 128, mem := fun _ ↦ 0, rx := (xmodemPacket 1 payload).map some }
  have h4 : 128 ≤ m.r4.toNat := Nat.le_of_eq rfl
  obtain ⟨m', hvalid, -⟩ := Cpu.response_new (m := m) hpay rfl (high_word 1 0).symm h4
  refine ⟨m, 1, [], ?_, by simp [hvalid]⟩
  simp [m, xmodemPacket, crcBytes]

/-- What is accepted does not depend on the state of the receiver. -/
theorem accepted_iff {body : List Byte} (hlen : body.length = 130) :
    Accepted body ↔ crc16Xmodem body = 0#16 := by
  rw [crc16Xmodem_eq_zero_iff hlen]
  constructor
  · rintro ⟨m, n, rest, hrx, hexit⟩
    by_contra hne
    exact hexit (Cpu.response_mismatch hlen hne hrx).1
  · intro hcrc
    rw [← List.take_append_drop 128 body, hcrc]
    refine accepted_packet ?_
    rw [List.length_take, hlen]
    rfl

/-- Strings that are both accepted do not differ by a pattern of the shape. -/
theorem not_shape_of_accepted {x y : List Byte} (hx : x.length = 130) (hy : y.length = 130)
    (hax : Accepted x) (hay : Accepted y) (hne : x ≠ y) :
    ¬ Shape 16 (setBits (difference x y)) := by
  intro hshape
  have hlen : (difference x y).length ≤ 4095 := by
    rw [difference, List.length_zipWith]
    omega
  apply crc16Xmodem_errors hlen (difference_ne_zero (hx.trans hy.symm) hne) hshape
  rw [crc16Xmodem_difference (hx.trans hy.symm), (accepted_iff hx).mp hax,
    (accepted_iff hy).mp hay, BitVec.xor_self]

/-- The errors on data and remainder that the receive core always detects. -/
theorem errors_detected :
    (∀ (payload e : List Byte) (m : Cpu) (n : Byte) (rest : List (Option Byte)),
      payload.length = 128 → e.length = 130 → (∃ b ∈ e, b ≠ 0) → Shape 16 (setBits e) →
      m.rx = ([soh, n, 0xFF ^^^ n] ++ difference (payload ++ crcBytes payload) e).map some ++ rest →
      m.response.1 = .bad ∧ m.response.2.tx = m.tx) ∧
    ∀ x y : List Byte, x.length = 130 → y.length = 130 → Accepted x → Accepted y → x ≠ y →
      4 ≤ (setBits (difference x y)).length ∧
        ¬ ∃ k, ∀ d ∈ setBits (difference x y), k ≤ d ∧ d < k + 16 := by
  constructor
  · intro payload e m n rest hpay he hne hshape hrx
    have hframe : (payload ++ crcBytes payload).length = 130 := by
      rw [List.length_append, hpay]
      rfl
    have hlen : (difference (payload ++ crcBytes payload) e).length = 130 := by
      rw [difference, List.length_zipWith, hframe, he, Nat.min_self]
    have hintact : crc16Xmodem (payload ++ crcBytes payload) = 0#16 := by
      refine (crc16Xmodem_eq_zero_iff hframe).mpr ?_
      rw [← hpay, List.drop_left, List.take_left]
    refine Cpu.response_mismatch hlen (fun heq ↦ ?_) hrx
    have hzero := (crc16Xmodem_eq_zero_iff hlen).mpr heq
    rw [crc16Xmodem_difference (hframe.trans he.symm), hintact, BitVec.zero_xor] at hzero
    exact crc16Xmodem_errors (by omega) hne hshape hzero
  · intro x y hx hy hax hay hne
    have hshape := not_shape_of_accepted hx hy hax hay hne
    refine ⟨?_, fun hk ↦ hshape (.inr (.inr hk))⟩
    by_contra hfew
    exact hshape (.inl (by omega))

/-- Three wrong bits in a block of zeros, and the block whose last bit is one. -/
theorem errors_detected_zeros :
    (∀ m : Cpu, m.rx = ([soh, 1, 0xFF ^^^ 1] ++ difference (List.replicate 128 0 ++
        crcBytes (List.replicate 128 0)) (List.replicate 129 0 ++ [7])).map some ++ [] →
      m.response.1 = .bad ∧ m.response.2.tx = m.tx) ∧
    4 ≤ (setBits (difference (List.replicate 128 0 ++ crcBytes (List.replicate 128 0))
      (List.replicate 127 0 ++ [1] ++ crcBytes (List.replicate 127 0 ++ [1])))).length :=
  ⟨fun m hrx ↦ errors_detected.1 (List.replicate 128 0) (List.replicate 129 0 ++ [7]) m 1 []
      List.length_replicate (by simp) ⟨7, by simp, by decide⟩ (.inl (by decide +kernel)) hrx,
    (errors_detected.2 _ _ (by simp [crcBytes]) (by simp [crcBytes])
      (accepted_packet List.length_replicate) (accepted_packet (by simp)) (by decide +kernel)).1⟩

end S8000.Serial
