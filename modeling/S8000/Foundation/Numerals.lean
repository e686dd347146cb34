import Mathlib.Data.List.Basic
import Mathlib.Data.Int.Basic
import Mathlib.Tactic.Ring
import Mathlib.Tactic.IntervalCases

namespace S8000.Foundation.Numerals

/-- The decimal text of an integer. -/
def decimal : ℤ → List Char
  | .ofNat n => Nat.toDigits 10 n
  | .negSucc n => '-' :: Nat.toDigits 10 (n + 1)

/-- `isspace` in the C locale. -/
def isSpace (c : Char) : Bool := c = ' ' ∨ 9 ≤ c.toNat ∧ c.toNat ≤ 13

/-- The value of a character as a digit of any base up to 36. -/
def digitValue (c : Char) : Option ℕ :=
  if '0' ≤ c ∧ c ≤ '9' then some (c.toNat - 48)
  else if 'a' ≤ c ∧ c ≤ 'z' then some (c.toNat - 87)
  else if 'A' ≤ c ∧ c ≤ 'Z' then some (c.toNat - 55)
  else none

/-- The digits of base `b` that a text starts with, on top of the value `acc`. -/
def readDigits (b acc : ℕ) : List Char → ℕ
  | [] => acc
  | c :: s =>
    match digitValue c with
    | some d => if d < b then readDigits b (b * acc + d) s else acc
    | none => acc

/-- An optional sign; `true` is a minus. -/
def sign : List Char → Bool × List Char
  | '-' :: s => (true, s)
  | '+' :: s => (false, s)
  | s => (false, s)

/-- The base that a C conversion reads in: base 0 goes by the text. -/
def radix (b : ℕ) : List Char → ℕ × List Char
  | '0' :: 'x' :: s => if b = 0 ∨ b = 16 then (16, s) else (b, '0' :: 'x' :: s)
  | '0' :: 'X' :: s => if b = 0 ∨ b = 16 then (16, s) else (b, '0' :: 'X' :: s)
  | '0' :: s => (if b = 0 then 8 else b, '0' :: s)
  | s => (if b = 0 then 10 else b, s)

/-- The sign and the absolute value of the number that a text starts with. -/
def scan (b : ℕ) (s : List Char) : Bool × ℕ :=
  let (neg, s) := sign (s.dropWhile isSpace)
  let (b, s) := radix b s
  (neg, readDigits b 0 s)

/-- `strtoul` for a 64-bit `unsigned long`. -/
def strtoul (b : ℕ) (s : List Char) : ℕ :=
  let (neg, n) := scan b s
  if 2 ^ 64 ≤ n then 2 ^ 64 - 1 else if neg then (2 ^ 64 - n) % 2 ^ 64 else n

/-- `strtoll` for a 64-bit `long long`. -/
def strtoll (b : ℕ) (s : List Char) : ℤ :=
  let (neg, n) := scan b s
  if neg then max (-2 ^ 63) (-n) else min (2 ^ 63 - 1) n

section Digits

variable {b : ℕ}

theorem digitValue_digitChar {d : ℕ} (h : d < 16) : digitValue (Nat.digitChar d) = some d := by
  interval_cases d <;> rfl

theorem readDigits_cons {d : ℕ} (hb : b ≤ 16) (hd : d < b) (acc : ℕ) (s : List Char) :
    readDigits b acc (Nat.digitChar d :: s) = readDigits b (b * acc + d) s := by
  rw [readDigits, digitValue_digitChar (by omega)]
  exact if_pos hd

theorem mem_toDigits (hb : 1 < b) (n : ℕ) {c : Char} (hc : c ∈ Nat.toDigits b n) :
    ∃ d < b, c = Nat.digitChar d := by
  induction n using Nat.strong_induction_on with
  | _ n ih =>
    rw [Nat.toDigits_eq_if hb] at hc
    split at hc
    · rename_i hn
      exact ⟨n, hn, by simpa using hc⟩
    · rename_i hn
      rcases List.mem_append.mp hc with hc | hc
      · exact ih (n / b) (Nat.div_lt_self (by omega) hb) hc
      · exact ⟨n % b, Nat.mod_lt _ (by omega), by simpa using hc⟩

theorem readDigits_append (hb : b ≤ 16) {l : List Char} (hl : ∀ c ∈ l, ∃ d < b, c = Nat.digitChar d)
    (acc : ℕ) (s : List Char) : readDigits b acc (l ++ s) = readDigits b (readDigits b acc l) s := by
  induction l generalizing acc with
  | nil => rfl
  | cons c l ih =>
    obtain ⟨d, hd, rfl⟩ := hl c List.mem_cons_self
    rw [List.cons_append, readDigits_cons hb hd, readDigits_cons hb hd]
    exact ih (fun c hc ↦ hl c (List.mem_cons_of_mem _ hc)) _

theorem readDigits_toDigits (hb : 1 < b) (hb' : b ≤ 16) (n : ℕ) :
    readDigits b 0 (Nat.toDigits b n) = n := by
  induction n using Nat.strong_induction_on with
  | _ n ih =>
    rw [Nat.toDigits_eq_if hb]
    split
    · rename_i hn
      rw [readDigits_cons hb' hn, readDigits, Nat.mul_zero, Nat.zero_add]
    · have hmod : n % b < b := Nat.mod_lt _ (by omega)
      rw [readDigits_append hb' fun c hc ↦ mem_toDigits hb _ hc, readDigits_cons hb' hmod,
        ih (n / b) (Nat.div_lt_self (by omega) hb), readDigits]
      exact Nat.div_add_mod n b

/-- Zeros in front make no difference. -/
theorem readDigits_padded (hb : 1 < b) (hb' : b ≤ 16) (width n : ℕ) :
    readDigits b 0 (List.replicate width '0' ++ Nat.toDigits b n) = n := by
  induction width with
  | zero => simpa using readDigits_toDigits hb hb' n
  | succ width ih =>
    rw [List.replicate_succ, List.cons_append]
    exact (readDigits_cons hb' (show 0 < b by omega) 0 _).trans ih

theorem toDigits_eq_cons (hb : 1 < b) (n : ℕ) :
    ∃ d < b, ∃ s, Nat.toDigits b n = Nat.digitChar d :: s := by
  cases h : Nat.toDigits b n with
  | nil => exact absurd h Nat.toDigits_ne_nil
  | cons c s =>
    obtain ⟨d, hd, rfl⟩ := mem_toDigits hb n (h ▸ List.mem_cons_self)
    exact ⟨d, hd, s, rfl⟩

/-- Only zero starts with a zero. -/
theorem toDigits_head (hb : 1 < b) {n : ℕ} (hn : n ≠ 0) :
    ∃ d < b, d ≠ 0 ∧ ∃ s, Nat.toDigits b n = Nat.digitChar d :: s := by
  induction n using Nat.strong_induction_on with
  | _ n ih =>
    rw [Nat.toDigits_eq_if hb]
    split
    · rename_i hlt
      exact ⟨n, hlt, hn, [], rfl⟩
    · rename_i hle
      have hpos : n / b ≠ 0 := (Nat.div_pos (not_lt.mp hle) (by omega)).ne'
      obtain ⟨d, hd, hne, s, hs⟩ := ih (n / b) (Nat.div_lt_self (by omega) hb) hpos
      exact ⟨d, hd, hne, s ++ [Nat.digitChar (n % b)], by rw [hs, List.cons_append]⟩

theorem sign_digitChar {d : ℕ} (h : d < 10) (s : List Char) :
    sign (Nat.digitChar d :: s) = (false, Nat.digitChar d :: s) := by
  interval_cases d <;> rfl

theorem isSpace_digitChar {d : ℕ} (h : d < 10) : isSpace (Nat.digitChar d) = false := by
  interval_cases d <;> rfl

theorem toNat_digitChar {d : ℕ} (h : d < 10) : (Nat.digitChar d).toNat = 48 + d := by
  interval_cases d <;> rfl

theorem radix_digits (hb : b ≠ 0) (hb' : b ≠ 16) (s : List Char) : radix b s = (b, s) := by
  unfold radix
  split <;> simp [hb, hb']

theorem scan_toDigits (hb : 1 < b) (hb' : b ≤ 10) (n : ℕ) :
    scan b (Nat.toDigits b n) = (false, n) := by
  obtain ⟨d, hd, s, hs⟩ := toDigits_eq_cons hb n
  have hscan : scan b (Nat.toDigits b n) = (false, readDigits b 0 (Nat.toDigits b n)) := by
    rw [hs, scan, List.dropWhile_cons_of_neg (by simp [isSpace_digitChar (show d < 10 by omega)]),
      sign_digitChar (by omega)]
    simp only [radix_digits (show b ≠ 0 by omega) (show b ≠ 16 by omega)]
  rw [hscan, readDigits_toDigits hb (by omega)]

theorem scan_neg (hb : 1 < b) (hb' : b ≤ 10) (n : ℕ) :
    scan b ('-' :: Nat.toDigits b n) = (true, n) := by
  have hdrop : ('-' :: Nat.toDigits b n).dropWhile isSpace = '-' :: Nat.toDigits b n :=
    List.dropWhile_cons_of_neg (by decide)
  rw [scan, hdrop, sign]
  simp only [radix_digits (show b ≠ 0 by omega) (show b ≠ 16 by omega),
    readDigits_toDigits hb (show b ≤ 16 by omega)]

end Digits

theorem mem_decimal {i : ℤ} {c : Char} (h : c ∈ decimal i) : c = '-' ∨ ∃ d < 10, c = Nat.digitChar d := by
  cases i with
  | ofNat n => exact .inr (mem_toDigits (by decide) n h)
  | negSucc n =>
    rcases List.mem_cons.mp h with h | h
    · exact .inl h
    · exact .inr (mem_toDigits (by decide) (n + 1) h)

theorem strtoul_toDigits {b : ℕ} (hb : 1 < b) (hb' : b ≤ 10) {n : ℕ} (hn : n < 2 ^ 64) :
    strtoul b (Nat.toDigits b n) = n := by
  rw [strtoul, scan_toDigits hb hb']
  simp only [if_neg (show ¬ 2 ^ 64 ≤ n by omega), Bool.false_eq_true, if_false]

/-- In base 0 a number is decimal unless it starts with a zero. -/
theorem strtoul_zero_toDigits {n : ℕ} (hn : n < 2 ^ 64) : strtoul 0 (Nat.toDigits 10 n) = n := by
  by_cases hzero : n = 0
  · rw [hzero]
    decide
  obtain ⟨d, hd, hne, s, hs⟩ := toDigits_head (show 1 < 10 by decide) hzero
  have hradix : radix 0 (Nat.digitChar d :: s) = (10, Nat.digitChar d :: s) := by
    interval_cases d
    · exact absurd rfl hne
    all_goals rfl
  have hscan : scan 0 (Nat.toDigits 10 n) = (false, n) := by
    rw [hs, scan, List.dropWhile_cons_of_neg (by simp [isSpace_digitChar hd]), sign_digitChar hd]
    simp only [hradix]
    rw [← hs, readDigits_toDigits (by decide) (by decide)]
  rw [strtoul, hscan]
  simp only [if_neg (show ¬ 2 ^ 64 ≤ n by omega), Bool.false_eq_true, if_false]

/-- A decimal text read as an unsigned number wraps around. -/
theorem strtoul_decimal {i : ℤ} (h : -2 ^ 64 < i) (h' : i < 2 ^ 64) :
    (strtoul 10 (decimal i) : ℤ) = i % 2 ^ 64 := by
  cases i with
  | ofNat n =>
    have hn : (n : ℤ) < 2 ^ 64 := h'
    rw [decimal, strtoul_toDigits (by decide) (by decide) (by omega)]
    exact (Int.emod_eq_of_lt (by omega) hn).symm
  | negSucc n =>
    have hn : n + 1 < 2 ^ 64 := by omega
    rw [decimal, strtoul, scan_neg (by decide) (by decide)]
    simp only [show ¬ 2 ^ 64 ≤ n + 1 by omega, if_false, if_true]
    rw [Nat.mod_eq_of_lt (by omega), Int.negSucc_eq]
    omega

/-- A decimal text read as a signed number is kept or clamped. -/
theorem strtoll_decimal (i : ℤ) :
    strtoll 10 (decimal i) = max (-2 ^ 63) (min (2 ^ 63 - 1) i) := by
  cases i with
  | ofNat n =>
    rw [decimal, strtoll, scan_toDigits (by decide) (by decide)]
    simp only [Bool.false_eq_true, if_false, Int.ofNat_eq_natCast]
    omega
  | negSucc n =>
    rw [decimal, strtoll, scan_neg (by decide) (by decide)]
    simp only [if_true, Int.negSucc_eq]
    push_cast
    omega

end S8000.Foundation.Numerals
