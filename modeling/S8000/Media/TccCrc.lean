import S8000.Media.SingleBitRepair

namespace S8000.Media.TccCrc

open Function Foundation Foundation.Bytes Foundation.Remainder VerifyTapeCrc SingleBitRepair

/-- The body of the inner loop of `tcc_crc`. -/
def tccShift (crc : ℕ) : ℕ :=
  if crc &&& 0x8000 ≠ 0 then ((crc <<< 1) ^^^ 0x8005) &&& 0xFFFF else (crc <<< 1) &&& 0xFFFF

def tccStep (crc : ℕ) (byte : Byte) : ℕ := tccShift^[8] (crc ^^^ byte.toNat <<< 8)

def tccCrc (data : List Byte) : ℕ := data.foldl tccStep 0

/-- `(len(payload) + 1).to_bytes(2, "big")`; `none` is the `OverflowError` of a longer payload. -/
def encodedLength (payload : List Byte) : Option (List Byte) :=
  if payload.length + 1 < 65536 then
    some [high (BitVec.ofNat 16 (payload.length + 1)), low (BitVec.ofNat 16 (payload.length + 1))]
  else none

/-- The constant that `verify_tape_crc` documents. -/
def residue : ℕ := 0x0027

/-- The bitwise loop divides by the same generator as the table. -/
theorem tccCrc_toNat (data : List Byte) : tccCrc data = (remainder generator 0#16 data).toNat :=
  foldl_wideFeed_toNat generator data 0#16

/-- The order of the indeterminate divides 32767, so 32768 bits behind a prefix count as one. -/
theorem iterate_shift_datalen (c : Word) : (shift generator)^[8 * datalen] c = shift generator c := by
  have hone : (shift generator)^[8 * datalen] 1#16 = (shift generator)^[1] 1#16 :=
    (syndrome_eq_iff _ _).mpr (by decide)
  rw [iterate_shift_eq_mul generator (by decide), hone, ← iterate_shift_eq_mul generator (by decide)]
  rfl

/-- Where the remainder starts only shows as a constant behind the message. -/
theorem remainder_init (c : Word) (data : List Byte) :
    remainder generator c data =
      remainder generator 0#16 data ^^^ (shift generator)^[8 * data.length] c := by
  have hzip : data = List.zipWith (· ^^^ ·) data (List.replicate data.length 0) := by
    apply List.ext_getElem <;> simp
  conv_lhs => rw [hzip, ← BitVec.zero_xor (x := c)]
  rw [remainder_zipWith_xor generator _ _ _ _ (by simp), remainder_zeros]

/-- The length 4097 in front of a full payload is the final exclusive or of `block_crc`. -/
theorem remainder_lengthFrame (p : List Byte) (hp : p.length = datalen) :
    remainder generator 0#16 ([0x10, 0x01] ++ p) = checkWord p := by
  have hprefix : shift generator (remainder generator 0#16 [0x10, 0x01]) = 0xC00C#16 := by
    decide +kernel
  rw [remainder_append, remainder_init, hp, iterate_shift_datalen, hprefix, checkWord]

theorem shift_generator_injective : Injective (shift generator) := shift_injective (by decide)

theorem encodedLength_datalen (p : List Byte) (hp : p.length = datalen) :
    encodedLength p = some [0x10, 0x01] := by
  rw [encodedLength, hp]
  decide

/-- The conventions agree: the stored value is the block's CRC exactly when the frame of the
controller, length first, leaves nothing; and then the record leaves the residue. -/
theorem crc_conventions_agree (p : List Byte) (hp : p.length = datalen) (c : Word) :
    (∃ len, encodedLength p = some len ∧
      (blockCrc p = c.toNat ↔ tccCrc (len ++ p ++ [high c, low c]) = 0) ∧
      (LoadTape.crc16 p = c.toNat ↔ tccCrc (len ++ p ++ [high c, low c]) = 0)) ∧
    (blockCrc p = c.toNat → crc16 (p ++ [high c, low c]) 0 = residue) := by
  have hblock : blockCrc p = c.toNat ↔ checkWord p = c := by
    rw [blockCrc_eq, BitVec.toNat_inj]
  have hframe : tccCrc ([0x10, 0x01] ++ p ++ [high c, low c]) = 0 ↔ checkWord p = c := by
    have hzero : (shift generator)^[16] 0#16 = 0#16 := iterate_shift_zero generator 16
    rw [tccCrc_toNat, remainder_append, remainder_lengthFrame p hp, remainder_word]
    change _ = (0#16).toNat ↔ _
    rw [BitVec.toNat_inj]
    constructor
    · intro h
      exact BitVec.xor_eq_zero_iff.mp ((shift_generator_injective.iterate 16) (h.trans hzero.symm))
    · intro h
      rw [h, BitVec.xor_self, hzero]
  refine ⟨⟨_, encodedLength_datalen p hp, hblock.trans hframe.symm, ?_⟩, ?_⟩
  · rw [loadTape_crc16_eq]
    exact hblock.trans hframe.symm
  · intro h
    have hc : remainder generator 0#16 p ^^^ c = 0xC00C#16 := by
      rw [← hblock.mp h, checkWord, ← BitVec.xor_assoc, BitVec.xor_self, BitVec.zero_xor]
    have hresidue : (shift generator)^[16] 0xC00C#16 = 0x0027#16 := by decide +kernel
    have hcrc : crc16 (p ++ [high c, low c]) 0 =
        (remainder generator 0#16 (p ++ [high c, low c])).toNat := crc16_toNat _ 0#16
    rw [hcrc, remainder_append, remainder_word, hc, hresidue]
    rfl

theorem blockCrc_zeros (n : ℕ) : blockCrc (List.replicate n 0) = 0xC00C := by
  rw [blockCrc_eq, checkWord, remainder_zeros, iterate_shift_zero]
  rfl

theorem crc_conventions_agree_zeros :
    (List.replicate datalen 0#8).length = datalen ∧
      crc16 (List.replicate datalen 0#8 ++ [0xC0, 0x0C]) 0 = residue :=
  ⟨List.length_replicate,
    (crc_conventions_agree _ List.length_replicate 0xC00C#16).2 (blockCrc_zeros datalen)⟩

end S8000.Media.TccCrc
