import S8000.Foundation.Bytes
import Mathlib.Dynamics.PeriodicPts.Lemmas
import Mathlib.Data.Nat.ModEq
import Mathlib.NumberTheory.Divisors
import Mathlib.Tactic.NormNum.Prime
import Mathlib.Tactic.WLOG

namespace S8000.Foundation.Remainder

open Function Bytes

variable {w : ℕ}

/-- Multiplication of a remainder by the indeterminate, modulo the monic
generator of degree `w` whose other coefficients are the bits of `poly`. -/
def shift (poly c : BitVec w) : BitVec w :=
  if c.msb then (c <<< 1) ^^^ poly else c <<< 1

/-- One message byte, most significant bit first. -/
def feed (poly c : BitVec w) (b : Byte) : BitVec w :=
  (shift poly)^[8] (c ^^^ (b.setWidth w <<< (w - 8)))

def remainder (poly : BitVec w) (init : BitVec w) (data : List Byte) : BitVec w :=
  data.foldl (feed poly) init

variable (poly : BitVec w)

theorem xor_xor_cancel (a b p : BitVec w) : a ^^^ p ^^^ (b ^^^ p) = a ^^^ b := by
  rw [BitVec.xor_assoc, BitVec.xor_comm b p, ← BitVec.xor_assoc p p b, BitVec.xor_self,
    BitVec.zero_xor]

@[simp] theorem shift_zero : shift poly 0#w = 0#w := by
  simp [shift]

theorem shift_xor (a b : BitVec w) : shift poly (a ^^^ b) = shift poly a ^^^ shift poly b := by
  unfold shift
  rw [BitVec.msb_xor, BitVec.shiftLeft_xor_distrib]
  cases a.msb <;> cases b.msb
  · rfl
  · simp only [Bool.false_xor, Bool.false_eq_true, ↓reduceIte, BitVec.xor_assoc]
  · simp only [Bool.true_xor, Bool.not_false, Bool.false_eq_true, ↓reduceIte]
    rw [BitVec.xor_assoc, BitVec.xor_comm (b <<< 1) poly, ← BitVec.xor_assoc]
  · simp only [Bool.true_xor, Bool.not_true, Bool.false_eq_true, ↓reduceIte, xor_xor_cancel]

theorem iterate_shift_zero (n : ℕ) : (shift poly)^[n] 0#w = 0#w :=
  iterate_fixed (shift_zero poly) n

theorem iterate_shift_xor (n : ℕ) (a b : BitVec w) :
    (shift poly)^[n] (a ^^^ b) = (shift poly)^[n] a ^^^ (shift poly)^[n] b := by
  induction n generalizing a b with
  | zero => rfl
  | succ n ih => simp only [iterate_succ_apply, shift_xor, ih]

/-- As long as no bit leaves the register, shifting is plain multiplication. -/
theorem iterate_shift_low (n : ℕ) (c : BitVec w) (h : c.toNat * 2 ^ n < 2 ^ w) :
    (shift poly)^[n] c = c <<< n := by
  induction n with
  | zero => simp
  | succ n ih =>
    rw [Nat.pow_succ] at h
    have hn : c.toNat * 2 ^ n < 2 ^ w := by
      have := Nat.mul_le_mul_left c.toNat (Nat.le_mul_of_pos_right (2 ^ n) Nat.zero_lt_two)
      omega
    have hval : (c <<< n).toNat = c.toNat * 2 ^ n := by
      rw [BitVec.toNat_shiftLeft, Nat.shiftLeft_eq, Nat.mod_eq_of_lt hn]
    have hmsb : (c <<< n).msb = false := by
      rw [BitVec.msb_eq_false_iff_two_mul_lt, hval]
      rw [← Nat.mul_assoc] at h
      omega
    rw [iterate_succ_apply', ih hn, shift, hmsb, if_neg (by decide), ← BitVec.shiftLeft_add]

theorem feed_xor (a b : BitVec w) (x y : Byte) :
    feed poly (a ^^^ b) (x ^^^ y) = feed poly a x ^^^ feed poly b y := by
  unfold feed
  rw [← iterate_shift_xor, BitVec.setWidth_xor, BitVec.shiftLeft_xor_distrib]
  congr 1
  rw [BitVec.xor_assoc, BitVec.xor_assoc, ← BitVec.xor_assoc b, BitVec.xor_comm b,
    BitVec.xor_assoc]

theorem feed_zero_byte (c : BitVec w) : feed poly c 0 = (shift poly)^[8] c := by
  simp [feed]

@[simp] theorem remainder_nil (c : BitVec w) : remainder poly c [] = c := rfl

@[simp] theorem remainder_cons (c : BitVec w) (b : Byte) (data : List Byte) :
    remainder poly c (b :: data) = remainder poly (feed poly c b) data := rfl

theorem remainder_append (c : BitVec w) (x y : List Byte) :
    remainder poly c (x ++ y) = remainder poly (remainder poly c x) y :=
  List.foldl_append

theorem remainder_zipWith_xor (a b : BitVec w) (x y : List Byte) (h : x.length = y.length) :
    remainder poly (a ^^^ b) (List.zipWith (· ^^^ ·) x y) =
      remainder poly a x ^^^ remainder poly b y := by
  induction x generalizing a b y with
  | nil => cases y with
    | nil => rfl
    | cons => cases h
  | cons u x ih => cases y with
    | nil => cases h
    | cons v y =>
      simp only [List.zipWith_cons_cons, remainder_cons, feed_xor]
      exact ih _ _ y (by simpa using h)

theorem remainder_zeros (c : BitVec w) (n : ℕ) :
    remainder poly c (List.replicate n 0) = (shift poly)^[8 * n] c := by
  induction n generalizing c with
  | zero => rfl
  | succ n ih =>
    rw [List.replicate_succ, remainder_cons, feed_zero_byte, ih, ← iterate_add_apply]
    rfl

/-- The remainder of two messages that differ in one byte differ by a remainder that
depends only on the difference and on the number of bytes behind it. -/
theorem remainder_set (c : BitVec w) (data : List Byte) (i : ℕ) (hi : i < data.length) (e : Byte) :
    remainder poly c (data.set i (data[i] ^^^ e)) =
      remainder poly c data ^^^ (shift poly)^[8 * (data.length - 1 - i)] (feed poly 0#w e) := by
  induction data generalizing c i with
  | nil => cases hi
  | cons u data ih => cases i with
    | zero =>
      have hd : data = List.zipWith (· ^^^ ·) data (List.replicate data.length 0) := by
        apply List.ext_getElem <;> simp
      have hu : feed poly c (u ^^^ e) = feed poly c u ^^^ feed poly 0#w e := by
        conv_lhs => rw [← BitVec.xor_zero (x := c)]
        exact feed_xor poly c 0#w u e
      simp only [List.set_cons_zero, List.getElem_cons_zero, remainder_cons, hu,
        List.length_cons, Nat.add_sub_cancel, Nat.sub_zero]
      conv_lhs => rw [hd]
      rw [remainder_zipWith_xor poly _ _ _ _ (by simp), remainder_zeros]
    | succ i =>
      have hlen : data.length - 1 - i = (u :: data).length - 1 - (i + 1) := by
        simp only [List.length_cons]
        omega
      simp only [List.set_cons_succ, List.getElem_cons_succ, remainder_cons]
      rw [ih (feed poly c u) i (by simpa using hi), hlen]

section Period

variable {poly}

/-- With a constant term in the generator the indeterminate is invertible. -/
theorem shift_injective (hp : poly.getLsbD 0 = true) : Injective (shift poly) := by
  have hkernel : ∀ c : BitVec w, shift poly c = 0#w → c = 0#w := by
    intro c hc
    have hlow : (shift poly c).getLsbD 0 = c.msb := by
      unfold shift
      cases hm : c.msb
      · simp
      · simp [hp]
    have hm : c.msb = false := by rw [← hlow, hc]; simp
    have hs : c <<< 1 = 0#w := by simpa [shift, hm] using hc
    apply BitVec.eq_of_toNat_eq
    rw [BitVec.msb_eq_false_iff_two_mul_lt] at hm
    have hv : (c <<< 1).toNat = c.toNat * 2 := by
      rw [BitVec.toNat_shiftLeft, Nat.shiftLeft_eq, Nat.mod_eq_of_lt (by omega)]
    rw [hs] at hv
    simp only [BitVec.toNat_ofNat, Nat.zero_mod] at hv ⊢
    omega
  intro a b h
  have h0 : a ^^^ b = 0#w := hkernel _ (by rw [shift_xor, h, BitVec.xor_self])
  exact BitVec.xor_eq_zero_iff.mp h0

/-- Powers of the indeterminate agree exactly when their exponents agree modulo the period. -/
theorem iterate_shift_eq_iff (hp : poly.getLsbD 0 = true) (c : BitVec w) (m n : ℕ) :
    (shift poly)^[m] c = (shift poly)^[n] c ↔ m ≡ n [MOD minimalPeriod (shift poly) c] := by
  wlog hle : m ≤ n generalizing m n
  · rw [eq_comm, this n m (by omega), Nat.ModEq.comm]
  obtain ⟨k, rfl⟩ := Nat.exists_eq_add_of_le hle
  rw [iterate_add_apply, (((shift_injective hp).iterate m).eq_iff), eq_comm]
  have hper : (shift poly)^[k] c = c ↔ minimalPeriod (shift poly) c ∣ k :=
    isPeriodicPt_iff_minimalPeriod_dvd
  rw [hper]
  constructor
  · intro h
    exact (Nat.modEq_iff_dvd' (by omega)).mpr (by simpa using h)
  · intro h
    simpa using (Nat.modEq_iff_dvd' (by omega)).mp h

end Period

section Loop

/-- The shift of a 16-bit remainder by a program whose integers are wider. -/
def wideShift (poly c : ℕ) : ℕ :=
  if c &&& 0x8000 ≠ 0 then ((c <<< 1) ^^^ poly) &&& 0xFFFF else (c <<< 1) &&& 0xFFFF

def wideFeed (poly c : ℕ) (b : Byte) : ℕ := (wideShift poly)^[8] (c ^^^ b.toNat <<< 8)

theorem wideShift_toNat (poly c : Word) :
    wideShift poly.toNat c.toNat = (shift poly c).toNat := by
  have hmask : ∀ n : ℕ, n &&& 0xFFFF = n % 2 ^ 16 := fun n ↦ Nat.and_two_pow_sub_one_eq_mod n 16
  have hmsb : c.toNat &&& 0x8000 ≠ 0 ↔ c.msb = true := by
    have hm : c.msb = c.toNat.testBit 15 := by
      rw [BitVec.msb_eq_getLsbD_last, BitVec.getLsbD]
    rw [hm]
    change c.toNat &&& 2 ^ 15 ≠ 0 ↔ _
    constructor
    · intro h
      by_contra hbit
      apply h
      apply Nat.eq_of_testBit_eq
      intro i
      rw [Nat.testBit_and, Nat.testBit_two_pow, Nat.zero_testBit]
      by_cases hi : 15 = i
      · subst hi
        simpa using hbit
      · simp [hi]
    · intro hbit h
      have hz : (c.toNat &&& 2 ^ 15).testBit 15 = false := by rw [h, Nat.zero_testBit]
      rw [Nat.testBit_and, Nat.testBit_two_pow, hbit] at hz
      cases hz
  unfold wideShift shift
  by_cases h : c.msb = true
  · rw [if_pos (hmsb.mpr h), if_pos h, hmask, BitVec.toNat_xor, BitVec.toNat_shiftLeft]
    rw [Nat.xor_mod_two_pow, Nat.mod_eq_of_lt poly.isLt]
  · rw [if_neg (fun h' ↦ h (hmsb.mp h')), if_neg h, hmask, BitVec.toNat_shiftLeft]

theorem iterate_wideShift_toNat (poly : Word) (n : ℕ) (c : Word) :
    (wideShift poly.toNat)^[n] c.toNat = ((shift poly)^[n] c).toNat := by
  induction n generalizing c with
  | zero => rfl
  | succ n ih => rw [iterate_succ_apply, iterate_succ_apply, wideShift_toNat, ih]

theorem wideFeed_toNat (poly c : Word) (b : Byte) :
    wideFeed poly.toNat c.toNat b = (feed poly c b).toNat := by
  have hbyte : b.toNat <<< 8 = (b.setWidth 16 <<< 8).toNat := by
    have hb := b.isLt
    rw [BitVec.toNat_shiftLeft, BitVec.toNat_setWidth_of_le (by decide), Nat.mod_eq_of_lt]
    rw [Nat.shiftLeft_eq]
    omega
  rw [wideFeed, hbyte, ← BitVec.toNat_xor]
  exact iterate_wideShift_toNat poly 8 _

/-- A loop over wide integers divides by the same generator. -/
theorem foldl_wideFeed_toNat (poly : Word) (data : List Byte) (c : Word) :
    data.foldl (wideFeed poly.toNat) c.toNat = (remainder poly c data).toNat := by
  induction data generalizing c with
  | nil => rfl
  | cons b data ih => rw [List.foldl_cons, wideFeed_toNat, remainder_cons, ih]

end Loop

section Power

/-- The exclusive or of the images of the bits of `b` under a map given on single bits. -/
def spread (b : BitVec w) (f : ℕ → BitVec w) (n : ℕ) : BitVec w :=
  (List.range n).foldl (fun acc i ↦ if b.getLsbD i then acc ^^^ f i else acc) 0

theorem spread_succ (b : BitVec w) (f : ℕ → BitVec w) (n : ℕ) :
    spread b f (n + 1) = if b.getLsbD n then spread b f n ^^^ f n else spread b f n := by
  simp only [spread, List.range_succ, List.foldl_append, List.foldl_cons, List.foldl_nil]

theorem iterate_shift_spread (m : ℕ) (b : BitVec w) (f : ℕ → BitVec w) (n : ℕ) :
    (shift poly)^[m] (spread b f n) = spread b (fun i ↦ (shift poly)^[m] (f i)) n := by
  induction n with
  | zero => exact iterate_shift_zero poly m
  | succ n ih =>
    rw [spread_succ, spread_succ]
    split
    · rw [iterate_shift_xor, ih]
    · exact ih

theorem getLsbD_spread_twoPow (b : BitVec w) (n j : ℕ) (hj : j < w) :
    (spread b (BitVec.twoPow w) n).getLsbD j = (decide (j < n) && b.getLsbD j) := by
  induction n with
  | zero => simp [spread]
  | succ n ih =>
    rw [spread_succ]
    by_cases hjn : j = n
    · subst hjn
      have h0 : (spread b (BitVec.twoPow w) j).getLsbD j = false := by simpa using ih
      cases hb : b.getLsbD j
      · simpa using h0
      · simp only [↓reduceIte, BitVec.getLsbD_xor, h0, BitVec.getLsbD_twoPow, hj]
        simp
    · have hlt : decide (j < n + 1) = decide (j < n) := decide_eq_decide.mpr (by omega)
      have hne : n ≠ j := fun h ↦ hjn h.symm
      rw [hlt]
      cases hb : b.getLsbD n <;> simp [ih, hne]

theorem spread_twoPow (b : BitVec w) : spread b (BitVec.twoPow w) w = b := by
  apply BitVec.eq_of_getLsbD_eq
  intro j hj
  rw [getLsbD_spread_twoPow b w j hj, decide_eq_true hj, Bool.true_and]

theorem spread_congr (b : BitVec w) {f g : ℕ → BitVec w} (n : ℕ) (h : ∀ i, i < n → f i = g i) :
    spread b f n = spread b g n := by
  induction n with
  | zero => rfl
  | succ n ih =>
    rw [spread_succ, spread_succ, ih (fun i hi ↦ h i (by omega)), h n (by omega)]

theorem iterate_shift_one (hw : 0 < w) (i : ℕ) (hi : i < w) :
    (shift poly)^[i] 1#w = BitVec.twoPow w i := by
  have h2 : 1 < 2 ^ w := Nat.one_lt_two_pow (by omega)
  have h1 : (1#w).toNat = 1 := by rw [BitVec.toNat_ofNat, Nat.mod_eq_of_lt h2]
  rw [iterate_shift_low poly i _ (by rw [h1, Nat.one_mul]; exact Nat.pow_lt_pow_right (by omega) hi)]
  rw [BitVec.twoPow_eq]

/-- The product of two remainders. -/
def mul (a b : BitVec w) : BitVec w := spread b (fun i ↦ (shift poly)^[i] a) w

theorem iterate_shift_eq_mul (hw : 0 < w) (m : ℕ) (b : BitVec w) :
    (shift poly)^[m] b = mul poly ((shift poly)^[m] 1#w) b := by
  conv_lhs => rw [← spread_twoPow b]
  rw [iterate_shift_spread, mul]
  apply spread_congr
  intro i hi
  rw [← iterate_shift_one poly hw i hi, ← iterate_add_apply, ← iterate_add_apply, Nat.add_comm]

/-- The power of the indeterminate whose exponent has the given binary digits, most
significant first, by repeated squaring. -/
def power (bits : List Bool) : BitVec w :=
  bits.foldl (fun acc bit ↦
    if bit then shift poly (mul poly acc acc) else mul poly acc acc) 1#w

def exponent (bits : List Bool) : ℕ := bits.foldl (fun n bit ↦ 2 * n + bit.toNat) 0

theorem iterate_shift_exponent (hw : 0 < w) (bits : List Bool) :
    (shift poly)^[exponent bits] 1#w = power poly bits := by
  induction bits using List.reverseRecOn with
  | nil => rfl
  | append_singleton bits bit ih =>
    have hsquare : (shift poly)^[2 * exponent bits] 1#w =
        mul poly (power poly bits) (power poly bits) := by
      rw [Nat.two_mul, iterate_add_apply, iterate_shift_eq_mul poly hw, ih]
    cases bit
    · simpa [exponent, power] using hsquare
    · simpa [exponent, power, iterate_succ_apply'] using congrArg (shift poly) hsquare

theorem not_isPeriodicPt_of_power (hw : 0 < w) {bits : List Bool} {n : ℕ}
    (h : power poly bits ≠ 1#w) (hn : exponent bits = n) :
    ¬ IsPeriodicPt (shift poly) n 1#w := by
  subst hn
  exact fun hp ↦ h ((iterate_shift_exponent poly hw bits).symm.trans hp)

end Power

section Order

/-- A number of steps that closes the orbit is its length when no quotient by a prime does. -/
theorem minimalPeriod_eq_of_div_prime {α : Type} {f : α → α} {x : α} {n : ℕ} (hn : 0 < n)
    (h : IsPeriodicPt f n x) (hp : ∀ p, p.Prime → p ∣ n → ¬ IsPeriodicPt f (n / p) x) :
    minimalPeriod f x = n := by
  obtain ⟨k, hk⟩ := h.minimalPeriod_dvd
  by_contra hne
  have hk1 : k ≠ 1 := by
    rintro rfl
    exact hne (by rw [hk, Nat.mul_one])
  obtain ⟨q, hq, j, rfl⟩ := Nat.exists_prime_and_dvd hk1
  have hprod : n = q * (minimalPeriod f x * j) := by
    rw [hk]
    ring
  apply hp q hq ⟨_, hprod⟩
  refine isPeriodicPt_iff_minimalPeriod_dvd.mpr ⟨j, ?_⟩
  exact Nat.div_eq_of_eq_mul_right hq.pos hprod

/-- The indeterminate has order `2 ^ 15 - 1` when the generator divides that power and none of
the three maximal proper divisors of the exponent has the property. -/
theorem minimalPeriod_shift_one (poly : Word)
    (h1 : power poly (List.replicate 15 true) = 1#16)
    (h7 : power poly [true, false, false, true, false, false, true, false, false, true, false,
      false, true] ≠ 1#16)
    (h31 : power poly [true, false, false, false, false, true, false, false, false, false,
      true] ≠ 1#16)
    (h151 : power poly [true, true, false, true, true, false, false, true] ≠ 1#16) :
    minimalPeriod (shift poly) 1#16 = 32767 := by
  have hper : IsPeriodicPt (shift poly) 32767 1#16 :=
    (iterate_shift_exponent poly (by decide) (List.replicate 15 true)).trans h1
  have h4681 : ¬ IsPeriodicPt (shift poly) 4681 1#16 :=
    not_isPeriodicPt_of_power poly (by decide) h7 (by decide)
  have h1057 : ¬ IsPeriodicPt (shift poly) 1057 1#16 :=
    not_isPeriodicPt_of_power poly (by decide) h31 (by decide)
  have h217 : ¬ IsPeriodicPt (shift poly) 217 1#16 :=
    not_isPeriodicPt_of_power poly (by decide) h151 (by decide)
  refine minimalPeriod_eq_of_div_prime (Nat.succ_pos _) hper ?_
  intro p hp hdvd
  have hcases : p = 7 ∨ p = 31 ∨ p = 151 := by
    rcases (Nat.Prime.dvd_mul hp).mp (show p ∣ 7 * 31 * 151 from hdvd) with h | h
    · rcases (Nat.Prime.dvd_mul hp).mp h with h | h
      · exact .inl ((Nat.prime_dvd_prime_iff_eq hp (by norm_num)).mp h)
      · exact .inr (.inl ((Nat.prime_dvd_prime_iff_eq hp (by norm_num)).mp h))
    · exact .inr (.inr ((Nat.prime_dvd_prime_iff_eq hp (by norm_num)).mp h))
  rcases hcases with rfl | rfl | rfl
  · exact h4681
  · exact h1057
  · exact h217

end Order

section Word

theorem split_xor (c : Word) (b : Byte) :
    c ^^^ b.setWidth 16 <<< 8 = (high c ^^^ b).setWidth 16 <<< 8 ^^^ (low c).setWidth 16 := by
  apply BitVec.eq_of_getLsbD_eq
  intro i hi'
  simp only [BitVec.getLsbD_xor, BitVec.getLsbD_shiftLeft, BitVec.getLsbD_setWidth, high, low,
    BitVec.getLsbD_extractLsb']
  by_cases h : i < 8
  · simp [h, hi']
  · have h8 : i - 8 < 8 := by omega
    simp [h, h8, hi', show 8 + (i - 8) = i by omega, show i - 8 < 16 by omega]

/-- A check word behind a message is added to the remainder, which then moves on by 16 bits. -/
theorem remainder_word (poly c x : Word) :
    remainder poly c [high x, low x] = (shift poly)^[16] (c ^^^ x) := by
  have hlow : (low x).setWidth 16 <<< 8 = (shift poly)^[8] ((low x).setWidth 16) := by
    refine (iterate_shift_low poly 8 _ ?_).symm
    rw [BitVec.toNat_setWidth_of_le (by decide)]
    have := (low x).isLt
    omega
  have hsplit : (high x).setWidth 16 <<< 8 ^^^ (low x).setWidth 16 = x := by
    have h := split_xor x 0
    simpa using h.symm
  rw [remainder_cons, remainder_cons, remainder_nil, feed, feed, hlow, ← iterate_shift_xor,
    ← iterate_add_apply, BitVec.xor_assoc, hsplit]

end Word

end S8000.Foundation.Remainder
