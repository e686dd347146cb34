import S8000.Serial.Damage
import Mathlib.Data.List.Infix

namespace S8000.Serial.Cpu

open Foundation Foundation.Bytes

section Core

/-- The bytes that arrive before the line pauses. -/
def arrived (rx : List (Option Byte)) : ℕ := (rx.takeWhile Option.isSome).length

/-- The block that arrives is the expected one, and one of its bytes is stored at `x`. -/
def StoresAt (m : Cpu) (x : Word) : Prop :=
  ∃ a b rest, m.rx = some soh :: some a :: some b :: rest ∧ a ^^^ b = 0xFF ∧ a = high m.r2 ∧
    128 ≤ m.r4.toNat ∧ ∃ k < min 128 (arrived rest), m.r5 + BitVec.ofNat 16 k = x

variable {m : Cpu}

theorem checkCrc_any (m : Cpu) (k : Cpu → Exit × Cpu) :
    ∃ m', (m.checkCrc k = (.bad, m') ∨ m.checkCrc k = k m') ∧ Still m m' ∧ m'.rx <:+ m.rx := by
  have hrx : m.getByte.rx <:+ m.rx := by
    rw [getByte_rx]
    exact List.tail_suffix _
  have hrx' : m.getByte.getByte.rx <:+ m.rx := by
    rw [getByte_rx]
    exact (List.tail_suffix _).trans hrx
  have hstill := m.getByte_still.trans m.getByte.getByte_still
  rw [checkCrc]
  simp only
  split
  · exact ⟨_, .inl rfl, m.getByte_still, hrx⟩
  · split
    · exact ⟨_, .inl rfl, m.getByte_still, hrx⟩
    · split
      · exact ⟨_, .inl rfl, hstill, hrx'⟩
      · split
        · exact ⟨_, .inl rfl, hstill, hrx'⟩
        · exact ⟨_, .inr rfl, hstill, hrx'⟩

theorem arrived_cons (b : Byte) (rx : List (Option Byte)) : arrived (some b :: rx) = arrived rx + 1 := rfl

/-- A new block, whatever follows its header. -/
theorem copy_any (n : ℕ) (m : Cpu) :
    ∃ e m', copy n m = (e, m') ∧ (e = .bad ∨ e = .valid) ∧ Frame m m' ∧ m'.rx <:+ m.rx ∧
      ∀ x, (∀ k < min n (arrived m.rx), m.r5 + BitVec.ofNat 16 k ≠ x) → m'.mem x = m.mem x := by
  induction n generalizing m with
  | zero =>
    obtain ⟨m', hcheck | hcheck, hstill, hrx⟩ := checkCrc_any m fun m ↦ (.valid, m)
    · exact ⟨.bad, m', hcheck, .inl rfl, hstill.toFrame, hrx, fun x _ ↦ by rw [hstill.mem]⟩
    · exact ⟨.valid, m', hcheck, .inr rfl, hstill.toFrame, hrx, fun x _ ↦ by rw [hstill.mem]⟩
  | succ n ih =>
    by_cases hp : Pause m.rx
    · obtain ⟨m', hcopy, hstill, hrx⟩ := copy_pause hp n
      exact ⟨.bad, m', hcopy, .inl rfl, hstill.toFrame, hrx ▸ List.tail_suffix _, fun x _ ↦ by rw [hstill.mem]⟩
    · obtain ⟨b, rx, hrx⟩ : ∃ b rx, m.rx = some b :: rx := by
        cases hrx : m.rx with
        | nil => exact absurd (hrx ▸ trivial) hp
        | cons o rx =>
          cases o with
          | none => exact absurd (hrx ▸ trivial) hp
          | some b => exact ⟨b, rx, rfl⟩
      obtain ⟨m₁, hstep, hframe₁, hrx₁, hmem₁, hr5₁, -⟩ := copy_step hrx n
      obtain ⟨e, m', hcopy, he, hframe, hsuffix, hmem⟩ := ih m₁
      refine ⟨e, m', hstep.trans hcopy, he, hframe₁.trans hframe, ?_, fun x hx ↦ ?_⟩
      · rw [hrx₁] at hsuffix
        rw [hrx]
        exact hsuffix.trans (List.suffix_cons _ _)
      · rw [hrx, arrived_cons] at hx
        have hne : x ≠ m.r5 := by
          have h0 := hx 0 (by omega)
          rw [BitVec.add_zero] at h0
          exact Ne.symm h0
        rw [hmem x, hmem₁, Memory.store_of_ne _ _ hne]
        intro k hk
        have hk' := hx (k + 1) (by rw [hrx₁] at hk; omega)
        rw [BitVec.ofNat_add, BitVec.add_comm (BitVec.ofNat 16 k), ← BitVec.add_assoc] at hk'
        rw [hr5₁]
        exact hk'

/-- A repeated block, whatever follows its header. -/
theorem discard_any (n : ℕ) (m : Cpu) :
    ∃ m', Still m m' ∧ m'.rx <:+ m.rx ∧ (discard n m = (.bad, m') ∨
      discard n m = (.duplicate, { m'.putByte ack with r3 := word 0 (low (m'.putByte ack).r3) })) := by
  induction n generalizing m with
  | zero =>
    obtain ⟨m', hcheck, hstill, hrx⟩ := checkCrc_any m fun m ↦
      (.duplicate, { m.putByte ack with r3 := word 0 (low (m.putByte ack).r3) })
    exact ⟨m', hstill, hrx, hcheck⟩
  | succ n ih =>
    cases hrx : m.rx with
    | nil =>
      obtain ⟨m', hdiscard, hstill, htail⟩ := discard_pause (by rw [hrx]; trivial) n
      exact ⟨m', hstill, by rw [htail, hrx]; exact List.nil_suffix, .inl hdiscard⟩
    | cons o rx =>
      cases o with
      | none =>
        obtain ⟨m', hdiscard, hstill, htail⟩ := discard_pause (by rw [hrx]; trivial) n
        exact ⟨m', hstill, by rw [htail, hrx]; exact List.suffix_cons _ _, .inl hdiscard⟩
      | some b =>
        obtain ⟨m₁, hstep, hstill₁, hrx₁, -⟩ := discard_step hrx n
        obtain ⟨m', hstill, hsuffix, hdiscard⟩ := ih m₁
        rw [hrx₁] at hsuffix
        rw [hstep]
        exact ⟨m', hstill₁.trans hstill, hsuffix.trans (List.suffix_cons _ _), hdiscard⟩

/-- What one pass through the core does, whatever arrives. -/
structure Answered (m : Cpu) (e : Exit) (m' : Cpu) : Prop where
  rx : m'.rx <:+ m.rx.tail
  r4 : m'.r4 = m.r4
  r7 : m'.r7 = m.r7
  rh3 : high m'.r3 = if e = .duplicate then 0 else high m.r3
  tx : m'.tx = m.tx ++ if e = .duplicate then [ack] else []
  room : e = .valid → 128 ≤ m.r4.toNat
  mem : ∀ x, ¬ m.StoresAt x → m'.mem x = m.mem x

theorem Still.answered {m' : Cpu} {e : Exit} (h : Still m m') (hrx : m'.rx <:+ m.rx.tail) (he : e ≠ .duplicate)
    (he' : e ≠ .valid) : Answered m e m' where
  rx := hrx
  r4 := h.r4
  r7 := h.r7
  rh3 := by rw [if_neg he, h.rh3]
  tx := by rw [if_neg he, h.tx, List.append_nil]
  room hv := absurd hv he'
  mem x _ := by rw [h.mem]

theorem Still.answered_bad {m' : Cpu} (h : Still m m') (hrx : m'.rx <:+ m.rx.tail) : Answered m .bad m' :=
  h.answered hrx (by decide) (by decide)

end Core

section Response

variable {m : Cpu}

/-- The expected block does not fit any more. -/
theorem dispatch_full {a b : Byte} (h6 : high m.r6 = a) (h3 : low m.r3 = b) (hab : a ^^^ b = 0xFF)
    (ha : a = high m.r2) (h4 : m.r4.toNat < 128) :
    ∃ m', m.dispatch = (.bad, m') ∧ Still m m' ∧ m'.rx = m.rx := by
  have hab' : ¬ b ^^^ a ≠ 0xFF := by rw [BitVec.xor_comm, hab]; simp
  rw [dispatch]
  simp only [low_word, h6, h3, if_neg hab', if_pos ha, newBlock, if_pos h4]
  exact ⟨_, rfl, ⟨⟨rfl, rfl, rfl, rfl, high_word _ _, rfl⟩, rfl, rfl⟩, rfl⟩

/-- The block is neither the expected one nor the one before it. -/
theorem dispatch_unexpected {a b : Byte} (h6 : high m.r6 = a) (h3 : low m.r3 = b) (hab : a ^^^ b = 0xFF)
    (ha : a ≠ high m.r2) (ha' : a ≠ high m.r2 - 1) :
    ∃ m', m.dispatch = (.bad, m') ∧ Still m m' ∧ m'.rx = m.rx := by
  have hab' : ¬ b ^^^ a ≠ 0xFF := by rw [BitVec.xor_comm, hab]; simp
  rw [dispatch]
  simp only [low_word, h6, h3, if_neg hab', if_neg ha, if_pos ha']
  exact ⟨_, rfl, ⟨⟨rfl, rfl, rfl, rfl, high_word _ _, rfl⟩, rfl, rfl⟩, rfl⟩

/-- The header has arrived, and with it a new block, a repeated one, or one that is not taken. -/
theorem dispatch_any {a b : Byte} (h6 : high m.r6 = a) (h3 : low m.r3 = b) :
    ∃ m', Still m m' ∧ m'.rx = m.rx ∧ (m.dispatch = (.bad, m') ∨
      m.dispatch = copy 128 m' ∧ a ^^^ b = 0xFF ∧ a = high m.r2 ∧ 128 ≤ m.r4.toNat ∨
      m.dispatch = discard 128 m') := by
  by_cases hab : a ^^^ b = 0xFF
  · by_cases ha : a = high m.r2
    · rcases lt_or_ge m.r4.toNat 128 with h4 | h4
      · obtain ⟨m', hbad, hstill, hrx⟩ := dispatch_full h6 h3 hab ha h4
        exact ⟨m', hstill, hrx, .inl hbad⟩
      · obtain ⟨m', hnew, hstill, hrx, -⟩ := dispatch_new h6 h3 hab ha h4
        exact ⟨m', hstill, hrx, .inr (.inl ⟨hnew, hab, ha, h4⟩)⟩
    · by_cases ha' : a = high m.r2 - 1
      · obtain ⟨m', hold, hstill, hrx, -⟩ := dispatch_old h6 h3 hab (by rw [ha', BitVec.sub_add_cancel])
        exact ⟨m', hstill, hrx, .inr (.inr hold)⟩
      · obtain ⟨m', hbad, hstill, hrx⟩ := dispatch_unexpected h6 h3 hab ha ha'
        exact ⟨m', hstill, hrx, .inl hbad⟩
  · obtain ⟨m', hbad, hstill, hrx⟩ := dispatch_complement h6 h3 hab
    exact ⟨m', hstill, hrx, .inl hbad⟩

/-- A header, and then whatever the line brings. -/
theorem answered_header {a b : Byte} {rest : List (Option Byte)} (hrx : m.rx = some soh :: some a :: some b :: rest) :
    ∃ e m', m.response = (e, m') ∧ Answered m e m' := by
  obtain ⟨m₁, hresponse, hstill₁, hrx₁, h6, h3⟩ := response_header hrx
  obtain ⟨m₂, hstill₂, hrx₂, hcases⟩ := dispatch_any h6 h3
  have hstill := hstill₁.trans hstill₂
  have hsuffix : ∀ {m' : Cpu}, m'.rx <:+ m₂.rx → m'.rx <:+ m.rx.tail := by
    intro m' h
    rw [hrx₂, hrx₁] at h
    rw [hrx]
    exact h.trans ⟨[some a, some b], rfl⟩
  rcases hcases with hbad | ⟨hnew, hab, hnumber, hroom⟩ | hold
  · exact ⟨.bad, m₂, hresponse.trans hbad, hstill.answered_bad (hsuffix (List.suffix_refl _))⟩
  · obtain ⟨e, m', hcopy, he, hframe, hrx', hmem⟩ := copy_any 128 m₂
    have hne : e ≠ .duplicate := by
      rcases he with rfl | rfl
      · decide
      · decide
    have hframe' := hstill.toFrame.trans hframe
    rw [hstill₁.rh2] at hnumber
    rw [hstill₁.r4] at hroom
    refine ⟨e, m', (hresponse.trans hnew).trans hcopy, hsuffix hrx', hframe'.r4, hframe'.r7, ?_, ?_, fun _ ↦ hroom,
      fun x hx ↦ ?_⟩
    · rw [if_neg hne, hframe'.rh3]
    · rw [if_neg hne, hframe'.tx, List.append_nil]
    · rw [hmem x, hstill.mem]
      rw [hrx₂, hrx₁, hstill.r5]
      exact fun k hk heq ↦ hx ⟨a, b, rest, hrx, hab, hnumber, hroom, k, hk, heq⟩
  · obtain ⟨m', hstill', hrx', hbad | hdup⟩ := discard_any 128 m₂
    · exact ⟨.bad, m', (hresponse.trans hold).trans hbad, (hstill.trans hstill').answered_bad (hsuffix hrx')⟩
    · have hall := hstill.trans hstill'
      refine ⟨.duplicate, _, (hresponse.trans hold).trans hdup, hsuffix hrx', hall.r4, hall.r7, high_word _ _, ?_,
        (fun h ↦ by cases h), fun x _ ↦ congrFun hall.mem x⟩
      exact congrArg (· ++ [ack]) hall.tx

/-- The line pauses before the header is complete. -/
theorem answered_pause {got : List Byte} {rest : List (Option Byte)} (hrx : m.rx = got.map some ++ rest)
    (hp : Pause rest) (hgot : got.length < 3) (hsoh : got.take 1 <+: [soh]) :
    ∃ e m', m.response = (e, m') ∧ Answered m e m' := by
  obtain ⟨m', hresponse, hstill, htail⟩ := response_pause hrx hp hgot hsoh
  refine ⟨.bad, m', hresponse, hstill.answered_bad ?_⟩
  rw [htail, hrx]
  cases got with
  | nil => exact List.suffix_refl _
  | cons b got => exact (List.tail_suffix rest).trans (List.suffix_append (got.map some) rest)

/-- One pass through the core. -/
theorem response_answered (m : Cpu) : ∃ e m', m.response = (e, m') ∧ Answered m e m' := by
  have hsuffix : m.getByte.rx <:+ m.rx.tail := by rw [getByte_rx]
  rcases hrx : m.rx with _ | ⟨_ | x, rx⟩
  · exact answered_pause (show m.rx = List.map some [] ++ [] from hrx) trivial (by decide) (by decide)
  · exact answered_pause (show m.rx = List.map some [] ++ none :: rx from hrx) trivial (by decide) (by decide)
  · obtain ⟨h0, h3, -⟩ := getByte_some_spec hrx
    by_cases heot : x = Serial.eot
    · refine ⟨.eot, m.getByte, ?_, m.getByte_still.answered hsuffix (by decide) (by decide)⟩
      rw [response]
      simp only [if_neg h0, h3, if_pos heot]
    · by_cases hcan : x = can
      · refine ⟨.error, m.getByte, ?_, m.getByte_still.answered hsuffix (by decide) (by decide)⟩
        rw [response]
        simp only [if_neg h0, h3, if_neg heot, if_pos hcan]
      · by_cases hsoh : x = soh
        · subst hsoh
          rcases rx with _ | ⟨_ | a, rx⟩
          · exact answered_pause (show m.rx = [soh].map some ++ [] from hrx) trivial (by decide) (by decide)
          · exact answered_pause (show m.rx = [soh].map some ++ none :: rx from hrx) trivial (by decide) (by decide)
          · rcases rx with _ | ⟨_ | b, rest⟩
            · exact answered_pause (show m.rx = [soh, a].map some ++ [] from hrx) trivial (by simp) (by simp)
            · exact answered_pause (show m.rx = [soh, a].map some ++ none :: rest from hrx) trivial (by simp) (by simp)
            · exact answered_header hrx
        · refine ⟨.bad, m.getByte, ?_, m.getByte_still.answered_bad hsuffix⟩
          rw [response]
          simp only [if_neg h0, h3, if_neg heot, if_neg hcan, ne_eq, hsoh, not_false_eq_true, if_true]

end Response

end S8000.Serial.Cpu
