import S8000.Foundation.Remainder
import Mathlib.Data.List.GetD

namespace S8000.Foundation.BitErrors

open Function Bytes Remainder

variable {w : ℕ}

/-- The bits that are set in a message, counted from its last one. -/
def setBits (e : List Byte) : List ℕ :=
  (List.range (8 * e.length)).filter fun d ↦ (e.reverse.getD (d / 8) 0).getLsbD (d % 8)

/-- The exclusive or of the images of the elements of a list. -/
def combine (f : ℕ → BitVec w) (l : List ℕ) : BitVec w :=
  l.foldr (fun d c ↦ f d ^^^ c) 0#w

@[simp] theorem combine_nil (f : ℕ → BitVec w) : combine f [] = 0#w := rfl

@[simp] theorem combine_cons (f : ℕ → BitVec w) (d : ℕ) (l : List ℕ) :
    combine f (d :: l) = f d ^^^ combine f l := rfl

theorem combine_append (f : ℕ → BitVec w) (l l' : List ℕ) :
    combine f (l ++ l') = combine f l ^^^ combine f l' := by
  induction l with
  | nil => simp
  | cons d l ih => rw [List.cons_append, combine_cons, combine_cons, ih, BitVec.xor_assoc]

theorem combine_map (f : ℕ → BitVec w) (g : ℕ → ℕ) (l : List ℕ) :
    combine f (l.map g) = combine (fun d ↦ f (g d)) l := by
  induction l with
  | nil => rfl
  | cons d l ih => rw [List.map_cons, combine_cons, combine_cons, ih]

theorem combine_congr {f g : ℕ → BitVec w} {l : List ℕ} (h : ∀ d ∈ l, f d = g d) :
    combine f l = combine g l := by
  induction l with
  | nil => rfl
  | cons d l ih =>
    have htail : combine f l = combine g l := ih fun d' hd' ↦ h d' (List.mem_cons_of_mem d hd')
    rw [combine_cons, combine_cons, htail, h d List.mem_cons_self]

theorem spread_eq_combine (b : BitVec w) (f : ℕ → BitVec w) (n : ℕ) :
    spread b f n = combine f ((List.range n).filter b.getLsbD) := by
  induction n with
  | zero => rfl
  | succ n ih =>
    rw [spread_succ, ih, List.range_succ, List.filter_append, combine_append]
    cases hb : b.getLsbD n <;> simp [hb]

/-- Distinct places below the width stay apart. -/
theorem getLsbD_combine_twoPow {l : List ℕ} (hl : l.Nodup) (i : ℕ) (hi : i < w) :
    (combine (BitVec.twoPow w) l).getLsbD i = decide (i ∈ l) := by
  induction l with
  | nil => simp
  | cons d l ih =>
    have hnd : d ∉ l := (List.nodup_cons.mp hl).1
    rw [combine_cons, BitVec.getLsbD_xor, ih (List.nodup_cons.mp hl).2, BitVec.getLsbD_twoPow]
    by_cases h : d = i
    · subst h
      simp [hi, hnd]
    · have h' : i ≠ d := fun heq ↦ h heq.symm
      simp [h, h']

section SetBits

variable {e : List Byte}

theorem setBits_lt {d : ℕ} (h : d ∈ setBits e) : d < 8 * e.length :=
  List.mem_range.mp (List.mem_of_mem_filter h)

theorem nodup_setBits (e : List Byte) : (setBits e).Nodup := List.nodup_range.filter _

/-- A byte in front of a message. -/
theorem setBits_cons (b : Byte) (e : List Byte) :
    setBits (b :: e) =
      setBits e ++ ((List.range 8).filter b.getLsbD).map (8 * e.length + ·) := by
  have hmul : 8 * (b :: e).length = 8 * e.length + 8 := by rw [List.length_cons]; omega
  rw [setBits, hmul, List.range_add, List.filter_append, List.filter_map, setBits]
  congr 1
  · apply List.filter_congr
    intro d hd
    have hd' : d / 8 < e.reverse.length := by
      rw [List.length_reverse]
      have := List.mem_range.mp hd
      omega
    rw [List.reverse_cons, List.getD_append _ _ _ _ hd']
  · congr 1
    apply List.filter_congr
    intro i hi
    have hi' := List.mem_range.mp hi
    have hdiv : (8 * e.length + i) / 8 = e.reverse.length := by
      rw [List.length_reverse]
      omega
    have hmod : (8 * e.length + i) % 8 = i := by omega
    simp only [comp_apply]
    rw [hdiv, hmod, List.reverse_cons, List.getD_append_right _ _ _ _ le_rfl]
    simp

theorem setBits_eq_nil (h : setBits e = []) : ∀ b ∈ e, b = 0 := by
  induction e with
  | nil => simp
  | cons b e ih =>
    rw [setBits_cons, List.append_eq_nil_iff, List.map_eq_nil_iff, List.filter_eq_nil_iff] at h
    intro x hx
    rcases List.mem_cons.mp hx with rfl | hx
    · apply BitVec.eq_of_getLsbD_eq
      intro i hi
      simpa using h.2 i (List.mem_range.mpr hi)
    · exact ih h.1 x hx

end SetBits

section Remainder

variable {poly : BitVec w} {e : List Byte}

theorem iterate_shift_combine (n : ℕ) (f : ℕ → BitVec w) (l : List ℕ) :
    (shift poly)^[n] (combine f l) = combine (fun d ↦ (shift poly)^[n] (f d)) l := by
  induction l with
  | nil => exact iterate_shift_zero poly n
  | cons d l ih => rw [combine_cons, iterate_shift_xor, ih, combine_cons]

/-- The value of a polynomial, given by the exponents that occur, at the indeterminate. -/
def value (poly : BitVec w) (l : List ℕ) : BitVec w := combine (fun d ↦ (shift poly)^[d] 1#w) l

theorem value_shift (n : ℕ) (l : List ℕ) :
    value poly (l.map (n + ·)) = (shift poly)^[n] (value poly l) := by
  rw [value, combine_map, value, iterate_shift_combine]
  exact combine_congr fun d _ ↦ iterate_add_apply _ _ _ _

theorem value_of_lt (hw : 0 < w) {l : List ℕ} (hl : ∀ d ∈ l, d < w) :
    value poly l = combine (BitVec.twoPow w) l :=
  combine_congr fun d hd ↦ iterate_shift_one poly hw d (hl d hd)

theorem feed_zero (hw : 8 ≤ w) (b : Byte) :
    feed poly 0#w b = (shift poly)^[w] (value poly ((List.range 8).filter b.getLsbD)) := by
  have hb := b.isLt
  have htop : b.setWidth w <<< (w - 8) = (shift poly)^[w - 8] (b.setWidth w) := by
    refine (iterate_shift_low poly (w - 8) _ ?_).symm
    rw [BitVec.toNat_setWidth_of_le hw]
    calc b.toNat * 2 ^ (w - 8) < 2 ^ 8 * 2 ^ (w - 8) :=
          Nat.mul_lt_mul_of_pos_right hb (Nat.two_pow_pos _)
      _ = 2 ^ w := by rw [← Nat.pow_add, Nat.add_sub_cancel' hw]
  have hbits : b.setWidth w = combine (BitVec.twoPow w) ((List.range 8).filter b.getLsbD) := by
    apply BitVec.eq_of_getLsbD_eq
    intro i hi
    rw [getLsbD_combine_twoPow (List.nodup_range.filter _) i hi, BitVec.getLsbD_setWidth]
    by_cases h8 : i < 8
    · simp [h8, hi]
    · simp [h8, BitVec.getLsbD_of_ge b i (by omega)]
  have hlt : ∀ d ∈ (List.range 8).filter b.getLsbD, d < w := fun d hd ↦
    (List.mem_range.mp (List.mem_of_mem_filter hd)).trans_le hw
  rw [feed, BitVec.zero_xor, htop, ← iterate_add_apply, Nat.add_sub_cancel' hw, hbits,
    value_of_lt (by omega) hlt]

/-- The remainder of a message is its value, moved up by the degree of the generator. -/
theorem remainder_eq_value (hw : 8 ≤ w) (e : List Byte) :
    remainder poly 0#w e = (shift poly)^[w] (value poly (setBits e)) := by
  induction e with
  | nil => exact (iterate_shift_zero poly w).symm
  | cons b e ih =>
    have hsplit : remainder poly (feed poly 0#w b) e =
        remainder poly 0#w e ^^^ (shift poly)^[8 * e.length] (feed poly 0#w b) := by
      have hzip : e = List.zipWith (· ^^^ ·) e (List.replicate e.length 0) := by
        apply List.ext_getElem <;> simp
      conv_lhs => rw [hzip, ← BitVec.zero_xor (x := feed poly 0#w b)]
      rw [remainder_zipWith_xor poly _ _ _ _ (by simp), remainder_zeros]
    have hmove : (shift poly)^[8 * e.length] (feed poly 0#w b) = (shift poly)^[w]
        (value poly (((List.range 8).filter b.getLsbD).map (8 * e.length + ·))) := by
      rw [feed_zero hw, value_shift, ← iterate_add_apply, ← iterate_add_apply, Nat.add_comm]
    have happend : value poly (setBits e ++ ((List.range 8).filter b.getLsbD).map
        (8 * e.length + ·)) = value poly (setBits e) ^^^
          value poly (((List.range 8).filter b.getLsbD).map (8 * e.length + ·)) :=
      combine_append _ _ _
    rw [remainder_cons, hsplit, ih, hmove, setBits_cons, happend, iterate_shift_xor]

end Remainder

section Parity

/-- The parity of the lowest `n` bits. -/
def parity (c : BitVec w) : ℕ → Bool
  | 0 => false
  | n + 1 => parity c n ^^ c.getLsbD n

theorem parity_xor (a b : BitVec w) (n : ℕ) :
    parity (a ^^^ b) n = (parity a n ^^ parity b n) := by
  induction n with
  | zero => rfl
  | succ n ih =>
    simp only [parity, ih, BitVec.getLsbD_xor]
    cases parity a n <;> cases parity b n <;> simp

theorem parity_zero (n : ℕ) : parity 0#w n = false := by
  induction n with
  | zero => rfl
  | succ n ih => simp [parity, ih]

theorem parity_shiftLeft (c : BitVec w) (n : ℕ) (hn : n < w) :
    parity (c <<< 1) (n + 1) = parity c n := by
  induction n with
  | zero => simp [parity]
  | succ n ih =>
    have hbit : (c <<< 1).getLsbD (n + 1) = c.getLsbD n := by
      rw [BitVec.getLsbD_shiftLeft, decide_eq_true hn, Nat.add_sub_cancel]
      simp
    rw [parity, ih (by omega), parity, hbit]

theorem parity_one (n : ℕ) (hw : 0 < w) : parity 1#w (n + 1) = true := by
  induction n with
  | zero => simp [parity, hw]
  | succ n ih =>
    rw [parity, ih]
    simp

variable {poly : BitVec w}

/-- A generator of even weight, whose leading coefficient is not stored, keeps the parity. -/
theorem parity_shift (hw : 0 < w) (hp : parity poly w = true) (c : BitVec w) :
    parity (shift poly c) w = parity c w := by
  obtain ⟨n, rfl⟩ : ∃ n, w = n + 1 := ⟨w - 1, by omega⟩
  have hdouble : parity (c <<< 1) (n + 1) = parity c n := parity_shiftLeft c n (by omega)
  have hmsb : c.msb = c.getLsbD n := by rw [BitVec.msb_eq_getLsbD_last, Nat.add_sub_cancel]
  rw [shift]
  cases hm : c.msb
  · rw [if_neg (by decide), hdouble, parity, ← hmsb, hm, Bool.xor_false]
  · rw [if_pos rfl, parity_xor, hdouble, hp, parity, ← hmsb, hm]

theorem parity_iterate (hw : 0 < w) (hp : parity poly w = true) (n : ℕ) (c : BitVec w) :
    parity ((shift poly)^[n] c) w = parity c w := by
  induction n generalizing c with
  | zero => rfl
  | succ n ih => rw [iterate_succ_apply, ih, parity_shift hw hp]

theorem parity_value (hw : 0 < w) (hp : parity poly w = true) (l : List ℕ) :
    parity (value poly l) w = decide (Odd l.length) := by
  have hone : parity 1#w w = true := by
    obtain ⟨n, rfl⟩ : ∃ n, w = n + 1 := ⟨w - 1, by omega⟩
    exact parity_one n hw
  induction l with
  | nil => exact parity_zero w
  | cons d l ih =>
    have hcons : value poly (d :: l) = (shift poly)^[d] 1#w ^^^ value poly l := rfl
    rw [hcons, parity_xor, parity_iterate hw hp, hone, ih, List.length_cons, Bool.true_xor]
    simp only [Nat.odd_add_one, decide_not]

end Parity

section Detection

variable {poly : BitVec w} {l : List ℕ}

/-- The patterns a generator of degree `w` is chosen to detect: few places, an odd number of
them, or all of them close together. -/
def Shape (w : ℕ) (l : List ℕ) : Prop :=
  l.length ≤ 3 ∨ Odd l.length ∨ ∃ k, ∀ d ∈ l, k ≤ d ∧ d < k + w

theorem value_ne_zero_of_odd (hw : 0 < w) (hp : parity poly w = true) (hl : Odd l.length) :
    value poly l ≠ 0#w := by
  intro h
  have hpar := parity_value hw hp l
  rw [h, parity_zero, decide_eq_true hl] at hpar
  cases hpar

/-- Two places within one period. -/
theorem value_pair_ne_zero (h0 : poly.getLsbD 0 = true) {a b : ℕ} (hab : a ≠ b)
    (ha : a < minimalPeriod (shift poly) 1#w) (hb : b < minimalPeriod (shift poly) 1#w) :
    value poly [a, b] ≠ 0#w := by
  intro h
  have hpair : value poly [a, b] = (shift poly)^[a] 1#w ^^^ (shift poly)^[b] 1#w := by
    simp [value]
  have heq := (iterate_shift_eq_iff h0 1#w a b).mp (BitVec.xor_eq_zero_iff.mp (hpair ▸ h))
  rw [Nat.ModEq, Nat.mod_eq_of_lt ha, Nat.mod_eq_of_lt hb] at heq
  exact hab heq

/-- Places within the width are those of a register, which is then moved up. -/
theorem value_ne_zero_of_window (hw : 0 < w) (h0 : poly.getLsbD 0 = true) (hnodup : l.Nodup)
    (hne : l ≠ []) {k : ℕ} (hk : ∀ d ∈ l, k ≤ d ∧ d < k + w) : value poly l ≠ 0#w := by
  have hmove : l = (l.map (· - k)).map (k + ·) := by
    rw [List.map_map]
    conv_lhs => rw [← List.map_id l]
    refine List.map_congr_left fun d hd ↦ ?_
    have := (hk d hd).1
    simp only [id_eq, comp_apply]
    omega
  have hlt : ∀ d ∈ l.map (· - k), d < w := by
    intro d hd
    obtain ⟨d', hd', rfl⟩ := List.mem_map.mp hd
    have := hk d' hd'
    omega
  have hnodup' : (l.map (· - k)).Nodup := by
    rw [hmove] at hnodup
    exact hnodup.of_map _
  obtain ⟨d, hd⟩ := List.exists_mem_of_ne_nil (l.map (· - k)) (by simpa using hne)
  intro h
  rw [hmove, value_shift, ← iterate_shift_zero poly k] at h
  have hlow := (shift_injective h0).iterate k h
  have hvalue : value poly (l.map (· - k)) = combine (BitVec.twoPow w) (l.map (· - k)) :=
    value_of_lt hw hlt
  have hbit := getLsbD_combine_twoPow hnodup' d (hlt d hd)
  rw [← hvalue, hlow, decide_eq_true hd] at hbit
  simp at hbit

/-- A generator of even weight with a constant term detects every pattern of the shape that is
shorter than its period. -/
theorem value_ne_zero (hw : 0 < w) (h0 : poly.getLsbD 0 = true) (hp : parity poly w = true)
    (hnodup : l.Nodup) (hne : l ≠ []) (hlt : ∀ d ∈ l, d < minimalPeriod (shift poly) 1#w)
    (hshape : Shape w l) : value poly l ≠ 0#w := by
  rcases hshape with hlen | hodd | ⟨k, hk⟩
  · rcases l with _ | ⟨a, _ | ⟨b, _ | ⟨c, _ | ⟨d, l⟩⟩⟩⟩
    · exact absurd rfl hne
    · exact value_ne_zero_of_odd hw hp odd_one
    · refine value_pair_ne_zero h0 ?_ (hlt a (by simp)) (hlt b (by simp))
      rintro rfl
      simp at hnodup
    · exact value_ne_zero_of_odd hw hp ⟨1, rfl⟩
    · simp only [List.length_cons] at hlen
      omega
  · exact value_ne_zero_of_odd hw hp hodd
  · exact value_ne_zero_of_window hw h0 hnodup hne hk

end Detection

end S8000.Foundation.BitErrors
