import S8000.Foundation.Remainder
import S8000.Media.LoadTape
import Mathlib.Data.List.GetD
import Mathlib.Tactic.IntervalCases

namespace S8000.Media.SingleBitRepair

open Function Foundation Foundation.Bytes Foundation.Remainder VerifyTapeCrc Dump

/-- The generator `x^16 + x^15 + x^2 + 1` as a remainder. -/
def generator : Word := 0x8005#16

theorem iterate_tabStep_toNat (n : ℕ) (c : Word) :
    tabStep^[n] c.toNat = ((shift generator)^[n] c).toNat :=
  iterate_wideShift_toNat generator n c

theorem tab_getD (b : Byte) :
    tab.getD b.toNat 0 = ((shift generator)^[8] (b.setWidth 16 <<< 8)).toNat := by
  have hb := b.isLt
  have hv : (b.setWidth 16 <<< 8).toNat = b.toNat <<< 8 := by
    rw [BitVec.toNat_shiftLeft, BitVec.toNat_setWidth_of_le (by decide), Nat.mod_eq_of_lt]
    rw [Nat.shiftLeft_eq]
    omega
  rw [← iterate_tabStep_toNat, hv, tab, List.getD_eq_getElem?_getD, List.getElem?_map,
    List.getElem?_range (by omega)]
  rfl

/-- One round of the table loop is one byte of polynomial division. -/
theorem crcStep_toNat (c : Word) (b : Byte) : crcStep c.toNat b = (feed generator c b).toNat := by
  have hindex : (c.toNat >>> 8) ^^^ b.toNat = (high c ^^^ b).toNat := by
    rw [BitVec.toNat_xor, high_toNat, Nat.shiftRight_eq_div_pow]
  have hlow : (shift generator)^[8] ((low c).setWidth 16) = (low c).setWidth 16 <<< 8 := by
    apply iterate_shift_low
    rw [BitVec.toNat_setWidth_of_le (by decide)]
    have := (low c).isLt
    omega
  have hshift : (c.toNat <<< 8) % 2 ^ 16 = ((low c).setWidth 16 <<< 8).toNat := by
    rw [BitVec.toNat_shiftLeft, BitVec.toNat_setWidth_of_le (by decide), low_toNat,
      Nat.shiftLeft_eq, Nat.shiftLeft_eq]
    omega
  rw [crcStep, hindex, tab_getD, feed, split_xor, iterate_shift_xor, hlow,
    BitVec.toNat_xor]
  rw [show (0xFFFF : ℕ) = 2 ^ 16 - 1 by rfl, Nat.and_two_pow_sub_one_eq_mod, Nat.xor_mod_two_pow,
    hshift, Nat.mod_eq_of_lt (BitVec.isLt _), Nat.xor_comm]

theorem crc16_toNat (data : List Byte) (init : Word) :
    crc16 data init.toNat = (remainder generator init data).toNat := by
  induction data generalizing init with
  | nil => rfl
  | cons b data ih =>
    rw [remainder_cons, ← ih, ← crcStep_toNat]
    rfl

/-- The CRC of a payload as a word. -/
def checkWord (payload : List Byte) : Word := remainder generator 0#16 payload ^^^ 0xC00C#16

theorem blockCrc_eq (payload : List Byte) : blockCrc payload = (checkWord payload).toNat := by
  rw [blockCrc, checkWord, BitVec.toNat_xor, ← crc16_toNat]
  rfl

theorem loadTape_crc16_eq (payload : List Byte) : LoadTape.crc16 payload = blockCrc payload := rfl

/-- The power of the indeterminate that bit `bit` of byte `pos` stands for in a record. -/
def degree (pos bit : ℕ) : ℕ := 8 * (datalen - 1 - pos) + (16 + bit)

/-- The change in the check word caused by the bit of that degree. -/
def syndrome (n : ℕ) : Word := (shift generator)^[n] 1#16

theorem feed_bit (bit : ℕ) (hb : bit < 8) :
    feed generator 0#16 (bitMask bit) = syndrome (16 + bit) := by
  have hone : (bitMask bit).setWidth 16 <<< 8 = (shift generator)^[8 + bit] 1#16 := by
    rw [iterate_shift_one generator (by decide) _ (by omega)]
    apply BitVec.eq_of_toNat_eq
    have hpow : 2 ^ bit ≤ 2 ^ 7 := Nat.pow_le_pow_right (by decide) (by omega)
    rw [BitVec.toNat_shiftLeft, BitVec.toNat_setWidth_of_le (by decide), bitMask,
      BitVec.toNat_shiftLeft, BitVec.toNat_twoPow_of_lt (by omega), Nat.shiftLeft_eq, Nat.shiftLeft_eq]
    rw [show (1#8).toNat = 1 by rfl, Nat.one_mul, Nat.pow_add, Nat.mod_eq_of_lt (a := 2 ^ bit)
      (by omega), Nat.mod_eq_of_lt (by omega), Nat.mul_comm]
  rw [feed, BitVec.zero_xor, hone, syndrome, ← iterate_add_apply]
  congr 1
  omega

theorem checkWord_flip (payload : List Byte) (hp : payload.length = datalen)
    (pos bit : ℕ) (hpos : pos < datalen) (hb : bit < 8) :
    checkWord (flipBits payload pos (bitMask bit)) = checkWord payload ^^^ syndrome (degree pos bit) := by
  have hlt : pos < payload.length := by omega
  rw [checkWord, flipBits, List.getD_eq_getElem _ _ hlt, remainder_set generator 0#16 payload pos hlt,
    feed_bit bit hb, syndrome, ← iterate_add_apply, hp, checkWord, syndrome, degree]
  rw [BitVec.xor_assoc, BitVec.xor_assoc, BitVec.xor_comm (0xC00C#16)]

/-- `x^15 + x + 1` is primitive, so the indeterminate has order `2^15 - 1`, which is
seventeen less than the number of bits of a record. -/
theorem minimalPeriod_generator : minimalPeriod (shift generator) 1#16 = 32767 :=
  minimalPeriod_shift_one generator (by decide +kernel) (by decide +kernel) (by decide +kernel)
    (by decide +kernel)

theorem syndrome_eq_iff (m n : ℕ) : syndrome m = syndrome n ↔ m % 32767 = n % 32767 := by
  rw [syndrome, syndrome, iterate_shift_eq_iff (by decide), minimalPeriod_generator]
  rfl

theorem syndrome_ne_zero (n : ℕ) : syndrome n ≠ 0#16 := by
  intro h
  rw [syndrome, ← iterate_shift_zero generator n] at h
  exact absurd (((shift_injective (by decide)).iterate n) h) (by decide)

theorem findSome?_range_eq_some {α : Type} {f : ℕ → Option α} {n i : ℕ} (hi : i < n)
    (hf : f i ≠ none) :
    ∃ j a, j ≤ i ∧ f j = some a ∧ (List.range n).findSome? f = some a := by
  induction n with
  | zero => omega
  | succ n ih =>
    rw [List.range_succ, List.findSome?_append]
    by_cases hin : i < n
    · obtain ⟨j, a, hj, ha, hs⟩ := ih hin
      exact ⟨j, a, hj, ha, by rw [hs]; rfl⟩
    · obtain rfl : i = n := by omega
      cases hs : (List.range i).findSome? f with
      | none =>
        obtain ⟨a, ha⟩ := Option.ne_none_iff_exists'.mp hf
        exact ⟨i, a, le_rfl, ha, by simp [ha]⟩
      | some a =>
        obtain ⟨j, hj, hja⟩ := List.exists_of_findSome?_eq_some hs
        exact ⟨j, a, (List.mem_range.mp hj).le, hja, rfl⟩

/-- The search order of both tools: byte offsets upwards, bits upwards within a byte. -/
def search (n : ℕ) (good : ℕ → ℕ → Bool) : Option (ℕ × ℕ) :=
  (List.range n).findSome? fun pos ↦ (List.range 8).findSome? fun bit ↦
    if good pos bit then some (pos, bit) else none

theorem search_of_good (good : ℕ → ℕ → Bool) {n pos bit : ℕ} (hpos : pos < n) (hbit : bit < 8)
    (hg : good pos bit = true) :
    ∃ p b, p ≤ pos ∧ b < 8 ∧ good p b = true ∧ search n good = some (p, b) := by
  have hinner : (List.range 8).findSome? (fun bit ↦
      if good pos bit then some (pos, bit) else none) ≠ none := by
    intro h
    have := List.findSome?_eq_none_iff.mp h bit (List.mem_range.mpr hbit)
    simp [hg] at this
  obtain ⟨p, a, hp, ha, hs⟩ := findSome?_range_eq_some (f := fun pos ↦
    (List.range 8).findSome? fun bit ↦ if good pos bit then some (pos, bit) else none) hpos hinner
  obtain ⟨b, hb, hpb⟩ := List.exists_of_findSome?_eq_some ha
  by_cases hgb : good p b = true
  · rw [if_pos hgb, Option.some_inj] at hpb
    exact ⟨p, b, hp, List.mem_range.mp hb, hgb, hpb ▸ hs⟩
  · rw [if_neg hgb] at hpb
    cases hpb

theorem repairSingleBit_eq_search (payload : List Byte) (stored : ℕ)
    (h : blockCrc payload ≠ stored) :
    repairSingleBit payload stored = (search payload.length fun pos bit ↦
      blockCrc (flipBits payload pos (bitMask bit)) = stored).map
        fun c ↦ (c.1, bitMask c.2) := by
  rw [repairSingleBit, if_neg h, search, List.map_findSome?]
  congr 1
  funext pos
  rw [comp_apply, List.map_findSome?]
  congr 1
  funext bit
  by_cases hc : blockCrc (flipBits payload pos (bitMask bit)) = stored <;> simp [hc]

theorem loadTape_repairSingleBit_eq_search (payload : List Byte) (stored : ℕ) :
    LoadTape.repairSingleBit payload stored = (search payload.length fun pos bit ↦
      blockCrc (flipBits payload pos (bitMask bit)) = stored).map
        fun c ↦ (c.1, payload.getD c.1 0 ^^^ bitMask c.2) := by
  rw [LoadTape.repairSingleBit, search, List.map_findSome?]
  congr 1
  funext pos
  rw [comp_apply, List.map_findSome?]
  congr 1
  funext bit
  by_cases hc : blockCrc (flipBits payload pos (bitMask bit)) = stored <;>
    simp [hc, loadTape_crc16_eq]

theorem take_good_drop (payload : List Byte) (pos : ℕ) (mask : Byte) (h : pos < payload.length) :
    payload.take pos ++ [payload.getD pos 0 ^^^ mask] ++ payload.drop (pos + 1) =
      flipBits payload pos mask := by
  rw [flipBits, List.set_eq_take_append_cons_drop, if_pos h]
  simp

/-- The verifier with `--fix` and the loader keep the same payload of every record. -/
theorem verifyRecord_stream (report : Report) (raw : List Byte) :
    (verifyRecord true report raw).stream = report.stream ++ LoadTape.keptPayload raw := by
  unfold verifyRecord LoadTape.keptPayload
  by_cases hlen : raw.length = reclen
  · simp only [hlen, ne_eq, not_true_eq_false, if_false, if_true, loadTape_crc16_eq]
    by_cases hcrc : blockCrc (raw.take datalen) =
        (word (raw.getD datalen 0) (raw.getD (datalen + 1) 0)).toNat
    · simp only [hcrc, if_true, not_true_eq_false, if_false]
    · simp only [hcrc, if_false, not_false_eq_true, if_true, repairSingleBit_eq_search _ _ hcrc,
        loadTape_repairSingleBit_eq_search]
      cases search (raw.take datalen).length _ with
      | none => rfl
      | some c => rfl
  · simp only [hlen, ne_eq, not_false_eq_true, if_true, if_false]

theorem foldl_verifyRecord_stream (records : List (List Byte)) (report : Report) :
    (records.foldl (verifyRecord true) report).stream =
      report.stream ++ records.flatMap LoadTape.keptPayload := by
  induction records generalizing report with
  | nil => simp
  | cons raw records ih =>
    rw [List.foldl_cons, ih, verifyRecord_stream, List.flatMap_cons, List.append_assoc]

theorem main_stream (records : List (List Byte)) :
    (main true records none).1 = records.flatMap LoadTape.keptPayload := by
  simp [main, foldl_verifyRecord_stream]

/-- A tape record as it was written: the payload and its CRC, high byte first. -/
def tapeRecord (payload : List Byte) : List Byte :=
  payload ++ [high (BitVec.ofNat 16 (blockCrc payload)), low (BitVec.ofNat 16 (blockCrc payload))]

theorem tapeRecord_eq (payload : List Byte) :
    tapeRecord payload = payload ++ [high (checkWord payload), low (checkWord payload)] := by
  rw [tapeRecord, blockCrc_eq, BitVec.ofNat_toNat, BitVec.setWidth_eq]

theorem keptPayload_eq (q : List Byte) (hq : q.length = datalen) (h l : Byte) :
    LoadTape.keptPayload (q ++ [h, l]) =
      if blockCrc q = (word h l).toNat then q
      else match search datalen (fun pos bit ↦
          blockCrc (flipBits q pos (bitMask bit)) = (word h l).toNat) with
        | some (pos, bit) => flipBits q pos (bitMask bit)
        | none => q := by
  have htake : (q ++ [h, l]).take datalen = q := by rw [← hq, List.take_left]
  have hh : (q ++ [h, l]).getD datalen 0 = h := by simp [← hq]
  have hl : (q ++ [h, l]).getD (datalen + 1) 0 = l := by simp [← hq]
  have hlen : (q ++ [h, l]).length = reclen := by simp [hq, datalen, reclen]
  rw [LoadTape.keptPayload, if_pos hlen]
  simp only [htake, hh, hl, loadTape_crc16_eq, loadTape_repairSingleBit_eq_search, hq]
  by_cases hc : blockCrc q = (word h l).toNat
  · simp only [hc, ne_eq, not_true_eq_false, if_false, if_true]
  · simp only [hc, ne_eq, not_false_eq_true, if_false, if_true]
    cases hs : search datalen (fun pos bit ↦
        blockCrc (flipBits q pos (bitMask bit)) = (word h l).toNat) with
    | none => rfl
    | some c =>
      obtain ⟨p, hp, hc'⟩ := List.exists_of_findSome?_eq_some hs
      obtain ⟨b, hb, hpb⟩ := List.exists_of_findSome?_eq_some hc'
      have hcp : c.1 = p := by
        split at hpb
        · rw [Option.some_inj] at hpb
          rw [← hpb]
        · cases hpb
      exact take_good_drop q c.1 _ (by rw [hcp, hq]; exact List.mem_range.mp hp)

/-- A payload whose stored check word is off by one power of the indeterminate: the search
accepts exactly the bits of a degree congruent to it. -/
theorem accepts_iff (q : List Byte) (hq : q.length = datalen) (n pos bit : ℕ)
    (hpos : pos < datalen) (hbit : bit < 8) :
    blockCrc (flipBits q pos (bitMask bit)) = (checkWord q ^^^ syndrome n).toNat ↔
      degree pos bit % 32767 = n % 32767 := by
  rw [blockCrc_eq, BitVec.toNat_inj, checkWord_flip q hq pos bit hpos hbit, BitVec.xor_right_inj,
    syndrome_eq_iff]

theorem blockCrc_ne (q : List Byte) (n : ℕ) : blockCrc q ≠ (checkWord q ^^^ syndrome n).toNat := by
  intro h
  rw [blockCrc_eq, BitVec.toNat_inj] at h
  have h0 : checkWord q ^^^ 0#16 = checkWord q ^^^ syndrome n := by rw [BitVec.xor_zero, ← h]
  exact syndrome_ne_zero n ((BitVec.xor_right_inj _).mp h0).symm

theorem search_finds (q : List Byte) (hq : q.length = datalen) (n pos bit : ℕ)
    (hpos : pos < datalen) (hbit : bit < 8) (hn : degree pos bit % 32767 = n % 32767) :
    ∃ p b, p ≤ pos ∧ b < 8 ∧ degree p b % 32767 = n % 32767 ∧
      search datalen (fun pos bit ↦
        blockCrc (flipBits q pos (bitMask bit)) = (checkWord q ^^^ syndrome n).toNat) =
          some (p, b) := by
  have hg := (accepts_iff q hq n pos bit hpos hbit).mpr hn
  obtain ⟨p, b, hp, hb, hgb, hs⟩ := search_of_good (fun pos bit ↦
    blockCrc (flipBits q pos (bitMask bit)) = (checkWord q ^^^ syndrome n).toNat)
    hpos hbit (decide_eq_true hg)
  exact ⟨p, b, hp, hb, (accepts_iff q hq n p b (by omega) hb).mp (of_decide_eq_true hgb), hs⟩

/-- The record of `p` with bit `bit` of byte `i` inverted. -/
def damaged (p : List Byte) (i bit : ℕ) : List Byte := flipBits (tapeRecord p) i (bitMask bit)

theorem damaged_payload (p : List Byte) (i bit : ℕ) (hi : i < p.length) :
    damaged p i bit =
      flipBits p i (bitMask bit) ++ [high (checkWord p), low (checkWord p)] := by
  rw [damaged, tapeRecord_eq, flipBits, flipBits, List.set_append_left _ _ hi,
    List.getD_append _ _ _ _ hi]

theorem syndrome_low (n : ℕ) (hn : n < 16) : syndrome n = BitVec.twoPow 16 n :=
  iterate_shift_one generator (by decide) n hn

theorem word_xor_bitMask_hi (c : Word) (bit : ℕ) (hb : bit < 8) :
    word (high c ^^^ bitMask bit) (low c) = c ^^^ syndrome (8 + bit) := by
  have hs : high (syndrome (8 + bit)) = bitMask bit ∧ low (syndrome (8 + bit)) = 0#8 := by
    rw [syndrome_low _ (by omega)]
    interval_cases bit <;> decide
  rw [← word_high_low (c ^^^ syndrome (8 + bit)), high_xor, low_xor, hs.1, hs.2, BitVec.xor_zero]

theorem word_xor_bitMask_lo (c : Word) (bit : ℕ) (hb : bit < 8) :
    word (high c) (low c ^^^ bitMask bit) = c ^^^ syndrome bit := by
  have hs : high (syndrome bit) = 0#8 ∧ low (syndrome bit) = bitMask bit := by
    rw [syndrome_low _ (by omega)]
    interval_cases bit <;> decide
  rw [← word_high_low (c ^^^ syndrome bit), high_xor, low_xor, hs.1, hs.2, BitVec.xor_zero]

/-- A flipped bit of the stored CRC leaves the payload and moves the check word by a power
below the sixteenth. -/
theorem damaged_crc (p : List Byte) (hp : p.length = datalen) (i bit : ℕ) (hi : datalen ≤ i)
    (hi' : i < reclen) (hb : bit < 8) :
    ∃ h l, damaged p i bit = p ++ [h, l] ∧
      word h l = checkWord p ^^^ syndrome (8 * (reclen - 1 - i) + bit) := by
  have hset : ∀ x, (tapeRecord p).set i x =
      p ++ [Bytes.high (checkWord p), low (checkWord p)].set (i - p.length) x := fun x ↦ by
    rw [tapeRecord_eq, List.set_append_right _ _ (by omega)]
  have hget : (tapeRecord p).getD i 0 =
      [Bytes.high (checkWord p), low (checkWord p)].getD (i - p.length) 0 := by
    rw [tapeRecord_eq, List.getD_append_right _ _ _ _ (by omega)]
  rw [damaged, flipBits, hset, hget, hp]
  have hcase : i = datalen ∨ i = datalen + 1 := by
    simp only [datalen, reclen] at *
    omega
  rcases hcase with rfl | rfl
  · refine ⟨_, _, by simp; exact ⟨rfl, rfl⟩, ?_⟩
    rw [word_xor_bitMask_hi _ _ hb]
    rfl
  · refine ⟨_, _, by simp; exact ⟨rfl, rfl⟩, ?_⟩
    rw [word_xor_bitMask_lo _ _ hb, show 8 * (reclen - 1 - (datalen + 1)) + bit = bit by
      simp [reclen, datalen]]

theorem degree_range (pos bit : ℕ) (hpos : pos < datalen) (hb : bit < 8) :
    16 ≤ degree pos bit ∧ degree pos bit ≤ 32783 := by
  simp only [degree, datalen] at *
  omega

theorem eq_or_extremes (m n : ℕ) (hn : 16 ≤ n) (hn' : n ≤ 32783) (hm : 16 ≤ m) (hm' : m ≤ 32783)
    (h : m % 32767 = n % 32767) : m = n ∨ (n = 16 ∧ m = 32783) ∨ (m = 16 ∧ n = 32783) := by
  omega

theorem flipBits_length (q : List Byte) (i : ℕ) (m : Byte) : (flipBits q i m).length = q.length :=
  List.length_set

theorem flipBits_ne (q : List Byte) (i bit : ℕ) (hi : i < q.length) (hb : bit < 8) :
    flipBits q i (bitMask bit) ≠ q := by
  intro h
  have hget := congrArg (fun l ↦ l.getD i 0) h
  have hm : bitMask bit ≠ 0#8 := by interval_cases bit <;> decide
  simp only [flipBits, List.getD_eq_getElem?_getD, List.getElem?_set_self hi] at hget
  apply hm
  have h0 : q[i]?.getD 0 ^^^ bitMask bit = q[i]?.getD 0 ^^^ 0#8 := by
    rw [BitVec.xor_zero]
    exact hget
  exact (BitVec.xor_right_inj _).mp h0

theorem flipBits_flipBits (q : List Byte) (i : ℕ) (m : Byte) :
    flipBits (flipBits q i m) i m = q := by
  by_cases hi : i < q.length
  · rw [flipBits, flipBits, List.set_set, List.getD_eq_getElem?_getD, List.getElem?_set_self hi,
      List.getD_eq_getElem _ _ hi]
    simp only [Option.getD_some, BitVec.xor_assoc, BitVec.xor_self, BitVec.xor_zero]
    exact List.set_getElem_self hi
  · rw [flipBits, flipBits, List.set_eq_of_length_le (by simp; omega),
      List.set_eq_of_length_le (by omega)]

theorem keptPayload_of_syndrome (q : List Byte) (hq : q.length = datalen) (h l : Byte) (n : ℕ)
    (hw : word h l = checkWord q ^^^ syndrome n) (pos bit : ℕ) (hpos : pos < datalen)
    (hbit : bit < 8) (hn : degree pos bit % 32767 = n % 32767) :
    ∃ p b, p ≤ pos ∧ b < 8 ∧ degree p b % 32767 = n % 32767 ∧
      repairSingleBit q (word h l).toNat = some (p, bitMask b) ∧
      LoadTape.keptPayload (q ++ [h, l]) = flipBits q p (bitMask b) := by
  obtain ⟨p, b, hp, hb, hd, hs⟩ := search_finds q hq n pos bit hpos hbit hn
  refine ⟨p, b, hp, hb, hd, ?_, ?_⟩
  · rw [hw, repairSingleBit_eq_search _ _ (blockCrc_ne q n), hq, hs]
    rfl
  · rw [keptPayload_eq q hq, hw, if_neg (blockCrc_ne q n), hs]

/-- Every bit of the stored CRC shares its syndrome with a payload bit near the front. -/
theorem keptPayload_damaged_crc (p : List Byte) (hp : p.length = datalen) (i bit : ℕ)
    (hi : datalen ≤ i) (hi' : i < reclen) (hb : bit < 8) :
    LoadTape.keptPayload (damaged p i bit) ≠ p := by
  obtain ⟨h, l, hraw, hw⟩ := damaged_crc p hp i bit hi hi' hb
  have hcollide : ∃ pos b, pos < datalen ∧ b < 8 ∧
      degree pos b = 32767 + (8 * (reclen - 1 - i) + bit) := by
    refine ⟨datalen - 1 - (32751 + (8 * (reclen - 1 - i) + bit)) / 8,
      (32751 + (8 * (reclen - 1 - i) + bit)) % 8, ?_, ?_, ?_⟩ <;>
    · simp only [degree, datalen, reclen] at *
      omega
  obtain ⟨pos, b, hpos, hb', hdeg⟩ := hcollide
  obtain ⟨p', b', hp', hb'', -, -, hkept⟩ := keptPayload_of_syndrome p hp h l _ hw pos b hpos hb'
    (by omega)
  rw [hraw, hkept]
  exact flipBits_ne p p' b' (by omega) hb''

/-- The last payload bit shares its syndrome with the first, which the search reaches before. -/
theorem keptPayload_damaged_last (p : List Byte) (hp : p.length = datalen) :
    LoadTape.keptPayload (damaged p (datalen - 1) 0) ≠ p := by
  have hlt : datalen - 1 < p.length := by simp [hp, datalen]
  have hlen : (flipBits p (datalen - 1) (bitMask 0)).length = datalen := by
    rw [flipBits_length, hp]
  have hw : word (high (checkWord p)) (low (checkWord p)) =
      checkWord (flipBits p (datalen - 1) (bitMask 0)) ^^^ syndrome 16 := by
    rw [word_high_low, checkWord_flip p hp _ _ (by decide) (by decide), BitVec.xor_assoc]
    simp [degree, datalen]
  obtain ⟨p', b', hp', hb', -, -, hkept⟩ := keptPayload_of_syndrome _ hlen _ _ 16 hw 0 7
    (by decide) (by decide) (by decide)
  rw [damaged_payload p _ _ hlt, hkept]
  intro h
  have h0 : p' ≠ datalen - 1 := by
    simp only [datalen]
    omega
  have hget := congrArg (fun x ↦ x.getD (datalen - 1) 0) h
  rw [flipBits] at hget
  simp only [List.getD_eq_getElem?_getD, List.getElem?_set_ne h0] at hget
  rw [← List.getD_eq_getElem?_getD, ← List.getD_eq_getElem?_getD, flipBits,
    List.getD_eq_getElem?_getD, List.getElem?_set_self hlt] at hget
  have hz : p.getD (datalen - 1) 0 ^^^ bitMask 0 = p.getD (datalen - 1) 0 ^^^ 0#8 := by
    rw [BitVec.xor_zero]
    exact hget
  exact absurd ((BitVec.xor_right_inj _).mp hz) (by decide)

theorem repair_damaged_payload (p : List Byte) (hp : p.length = datalen) (i bit : ℕ)
    (hi : i < datalen) (hb : bit < 8) (hne : ¬ (i = datalen - 1 ∧ bit = 0)) :
    repairSingleBit (flipBits p i (bitMask bit)) (blockCrc p) = some (i, bitMask bit) ∧
      LoadTape.keptPayload (damaged p i bit) = p := by
  have hlen : (flipBits p i (bitMask bit)).length = datalen := by rw [flipBits_length, hp]
  have hw : word (high (checkWord p)) (low (checkWord p)) =
      checkWord (flipBits p i (bitMask bit)) ^^^ syndrome (degree i bit) := by
    rw [word_high_low, checkWord_flip p hp i bit hi hb, BitVec.xor_assoc, BitVec.xor_self,
      BitVec.xor_zero]
  obtain ⟨p', b', hp', hb', hd, hrepair, hkept⟩ :=
    keptPayload_of_syndrome _ hlen _ _ _ hw i bit hi hb rfl
  have heq : p' = i ∧ b' = bit := by
    have hr := degree_range i bit hi hb
    have hr' := degree_range p' b' (by omega) hb'
    -- Degrees that agree modulo the period are equal or those of the first and the last bit.
    rcases eq_or_extremes _ _ hr.1 hr.2 hr'.1 hr'.2 hd with h | ⟨h, -⟩ | ⟨h, h'⟩
    · clear hd
      simp only [degree, datalen] at *
      omega
    · clear hd
      simp only [degree, datalen] at *
      omega
    · clear hd
      simp only [degree, datalen] at *
      omega
  obtain ⟨rfl, rfl⟩ := heq
  rw [word_high_low, ← blockCrc_eq] at hrepair
  exact ⟨hrepair, by rw [damaged_payload p _ _ (by omega), hkept, flipBits_flipBits]⟩

theorem keptPayload_damaged_iff (p : List Byte) (hp : p.length = datalen) (i bit : ℕ)
    (hi : i < reclen) (hb : bit < 8) :
    LoadTape.keptPayload (damaged p i bit) = p ↔ i < datalen ∧ ¬ (i = datalen - 1 ∧ bit = 0) := by
  constructor
  · intro h
    refine ⟨?_, ?_⟩
    · by_contra hge
      exact keptPayload_damaged_crc p hp i bit (by omega) hi hb h
    · rintro ⟨rfl, rfl⟩
      exact keptPayload_damaged_last p hp h
  · rintro ⟨hlt, hne⟩
    exact (repair_damaged_payload p hp i bit hlt hb hne).2

/-- The bytes of the eight records that a tape holds for block `n`. -/
def blockBytes (tape : Dict ℕ Record) (n : ℕ) : List Byte :=
  (List.range LoadTape.recsPerBlock).flatMap fun k ↦
    ((tape.get? (n * LoadTape.recsPerBlock + k)).map Record.bytes).getD []

theorem split_cons (bytes : List Byte) (h : recordSize ≤ bytes.length) :
    Record.split bytes = ⟨bytes.take recordSize, by simp [h]⟩ ::
      Record.split (bytes.drop recordSize) := by
  rw [Record.split, dif_pos h]

theorem split_flatten (n : ℕ) (bytes : List Byte) (h : bytes.length = n * recordSize) :
    (Record.split bytes).length = n ∧ (Record.split bytes).flatMap Record.bytes = bytes := by
  induction n generalizing bytes with
  | zero =>
    have hnil : bytes = [] := List.length_eq_zero_iff.mp (by omega)
    subst hnil
    rw [Record.split, dif_neg (by decide)]
    simp
  | succ n ih =>
    have hle : recordSize ≤ bytes.length := by
      rw [h, Nat.succ_mul]
      omega
    have hd : (bytes.drop recordSize).length = n * recordSize := by
      rw [List.length_drop, h, Nat.succ_mul]
      omega
    obtain ⟨hlen, hflat⟩ := ih _ hd
    rw [split_cons bytes hle]
    refine ⟨by rw [List.length_cons, hlen], ?_⟩
    rw [List.flatMap_cons, hflat, List.take_append_drop]

theorem flatMap_range_getElem? (rs : List Record) :
    ((List.range rs.length).flatMap fun k ↦ (rs[k]?.map Record.bytes).getD []) =
      rs.flatMap Record.bytes := by
  induction rs using List.reverseRecOn with
  | nil => rfl
  | append_singleton rs r ih =>
    rw [List.length_append, List.length_singleton, List.range_succ, List.flatMap_append,
      List.flatMap_append, ← ih]
    congr 1
    · apply List.flatMap_congr
      intro k hk
      rw [List.getElem?_append_left (List.mem_range.mp hk)]
    · simp

/-- The records of the block read last are those of its kept payload. -/
theorem blockBytes_loadTape (files : List (ℕ × List Byte)) (n : ℕ) (raw : List Byte)
    (hraw : (LoadTape.keptPayload raw).length = datalen) :
    blockBytes (LoadTape.loadTape (files ++ [(n, raw)]) none) n = LoadTape.keptPayload raw := by
  obtain ⟨hlen, hflat⟩ := split_flatten 8 (LoadTape.keptPayload raw) hraw
  rw [← hflat, ← flatMap_range_getElem?, hlen]
  simp only [blockBytes, LoadTape.loadTape, List.foldl_append, List.foldl_cons, List.foldl_nil,
    LoadTape.loadBlock]
  apply List.flatMap_congr
  intro k hk
  have hk' := List.mem_range.mp hk
  rw [get?_numbered, if_pos (by simp only [LoadTape.recsPerBlock] at *; omega),
    Nat.add_sub_cancel_left]

theorem keptPayload_damaged_length (p : List Byte) (hp : p.length = datalen) (i bit : ℕ)
    (hi : i < reclen) (hb : bit < 8) :
    (LoadTape.keptPayload (damaged p i bit)).length = datalen := by
  have hform : ∃ q h l, q.length = datalen ∧ damaged p i bit = q ++ [h, l] := by
    by_cases hlt : i < datalen
    · exact ⟨_, _, _, by rw [flipBits_length, hp], damaged_payload p i bit (by omega)⟩
    · obtain ⟨h, l, hraw, -⟩ := damaged_crc p hp i bit (by omega) hi hb
      exact ⟨p, h, l, hp, hraw⟩
  obtain ⟨q, h, l, hq, hraw⟩ := hform
  rw [hraw, keptPayload_eq q hq]
  split
  · exact hq
  · split
    · rw [flipBits_length, hq]
    · exact hq

/-- What recovery promises for the record of `p` with one bit inverted: both tools keep `p`
whatever else the directory holds, and a flipped payload bit is reported where it is. -/
structure Recovered (p : List Byte) (i bit : ℕ) : Prop where
  verify_stream : ∀ before after, (main true (before ++ damaged p i bit :: after) none).1 =
    (main true before none).1 ++ p ++ (main true after none).1
  load_tape : ∀ files n, blockBytes (LoadTape.loadTape (files ++ [(n, damaged p i bit)]) none) n = p
  located : i < datalen →
    repairSingleBit ((damaged p i bit).take datalen) (blockCrc p) = some (i, bitMask bit)

theorem damaged_take (p : List Byte) (hp : p.length = datalen) (i bit : ℕ) (hi : i < datalen) :
    (damaged p i bit).take datalen = flipBits p i (bitMask bit) := by
  have hlen : (flipBits p i (bitMask bit)).length = datalen := by rw [flipBits_length, hp]
  rw [damaged_payload p i bit (by omega), ← hlen, List.take_left]

theorem keptPayload_of_recovered {p : List Byte} {i bit : ℕ} (h : Recovered p i bit) :
    LoadTape.keptPayload (damaged p i bit) = p := by
  simpa [main_stream] using h.verify_stream [] []

theorem repair_single_bit (p : List Byte) (hp : p.length = datalen) (i bit : ℕ)
    (hi : i < reclen) (hb : bit < 8) :
    Recovered p i bit ↔ i < datalen ∧ ¬ (i = datalen - 1 ∧ bit = 0) := by
  rw [← keptPayload_damaged_iff p hp i bit hi hb]
  refine ⟨keptPayload_of_recovered, fun h ↦ ⟨?_, ?_, ?_⟩⟩
  · intro before after
    simp only [main_stream, List.flatMap_append, List.flatMap_cons, h, List.append_assoc]
  · intro files n
    rw [blockBytes_loadTape files n _ (keptPayload_damaged_length p hp i bit hi hb), h]
  · intro hlt
    have hne := ((keptPayload_damaged_iff p hp i bit hi hb).mp h).2
    rw [damaged_take p hp i bit hlt]
    exact (repair_damaged_payload p hp i bit hlt hb hne).1

theorem repair_single_bit_zeros : Recovered (List.replicate datalen 0#8) 0 7 :=
  (repair_single_bit _ List.length_replicate 0 7 (by decide) (by decide)).mpr
    ⟨by decide, by decide⟩

/-- A record of zeros whose stored CRC lost its last bit is altered in the payload. -/
theorem stored_crc_flip_alters_payload : ¬ Recovered (List.replicate datalen 0#8) (datalen + 1) 0 :=
  fun h ↦ keptPayload_damaged_crc _ List.length_replicate (datalen + 1) 0 (by decide) (by decide)
    (by decide) (keptPayload_of_recovered h)

end S8000.Media.SingleBitRepair
