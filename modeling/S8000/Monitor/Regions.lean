import S8000.Monitor.Items

namespace S8000.Monitor

open Foundation Foundation.Bytes

section Classify

/-- The region paints the byte. -/
def Region.Covers (r : Region) (a : ℕ) : Prop :=
  r.start ≤ a ∧ a < r.stop ∨ r.start ≤ (a : ℤ) - SIZE ∧ (a : ℤ) - SIZE < r.stop

theorem paint_cases {kind kind' : ℕ → Kind} {k : Kind} {start stop : ℤ} (h : paint kind k start stop = some kind')
    (a : ℕ) :
    (start ≤ a ∧ a < stop ∨ start ≤ (a : ℤ) - SIZE ∧ (a : ℤ) - SIZE < stop) ∧ kind' a = k ∨
      ¬ (start ≤ a ∧ a < stop ∨ start ≤ (a : ℤ) - SIZE ∧ (a : ℤ) - SIZE < stop) ∧ kind' a = kind a := by
  unfold paint at h
  split at h
  · cases h
  · cases h
    by_cases hin : start ≤ a ∧ a < stop ∨ start ≤ (a : ℤ) - SIZE ∧ (a : ℤ) - SIZE < stop
    · exact .inl ⟨hin, if_pos hin⟩
    · exact .inr ⟨hin, if_neg hin⟩

/-- The last region that covers a byte decides. -/
theorem paintRegions_cases {kind kind' : ℕ → Kind} {regions : List Region} (h : paintRegions kind regions = some kind')
    (a : ℕ) :
    (∃ r ∈ regions, r.Covers a ∧ kind' a = r.kind) ∨ (∀ r ∈ regions, ¬ r.Covers a) ∧ kind' a = kind a := by
  induction regions generalizing kind with
  | nil =>
    cases h
    exact .inr ⟨fun r hr ↦ absurd hr List.not_mem_nil, rfl⟩
  | cons r rest ih =>
    obtain ⟨kind₁, hpaint, h⟩ := Option.bind_eq_some_iff.mp h
    obtain ⟨s, hs, hcovers, hkind⟩ | ⟨hnone, hkind⟩ := ih h
    · exact .inl ⟨s, List.mem_cons_of_mem _ hs, hcovers, hkind⟩
    · obtain ⟨hcovers, hk⟩ | ⟨hcovers, hk⟩ := paint_cases hpaint a
      · exact .inl ⟨r, List.mem_cons_self, hcovers, hkind.trans hk⟩
      · refine .inr ⟨fun s hs ↦ ?_, hkind.trans hk⟩
        obtain rfl | hs := List.mem_cons.mp hs
        · exact hcovers
        · exact hnone s hs

theorem allWord_word {kind : ℕ → Kind} {start : ℤ} {n : ℕ} (h : allWord kind start n = some true) {a : ℕ} (ha : a < SIZE)
    (hin : start ≤ a ∧ a < start + n ∨ start ≤ (a : ℤ) - SIZE ∧ (a : ℤ) - SIZE < start + n) : kind a = .word := by
  induction n generalizing start with
  | zero => omega
  | succ n ih =>
    obtain ⟨i, hi, h⟩ := Option.bind_eq_some_iff.mp h
    split at h
    · rename_i hword
      by_cases hfirst : (a : ℤ) = start ∨ (a : ℤ) - SIZE = start
      · have hindex : index start = some a := by
          unfold index
          obtain hfirst | hfirst := hfirst
          · rw [if_pos (by omega), ← hfirst, Int.toNat_natCast]
          · rw [if_neg (by omega), if_pos (by omega), ← hfirst, Int.sub_add_cancel, Int.toNat_natCast]
        rw [hindex] at hi
        cases hi
        exact hword
      · exact ih h (by omega)
    · cases h

/-- An instruction only takes bytes about which no region says more than that they are words. -/
theorem claimCode_cases {kind kind' : ℕ → Kind} {code : List (ℤ × Insn)} (h : claimCode kind code = some kind') {a : ℕ}
    (ha : a < SIZE) : kind' a = kind a ∨ kind a = .word ∧ kind' a = .code := by
  induction code generalizing kind with
  | nil =>
    cases h
    exact .inl rfl
  | cons c rest ih =>
    rw [claimCode] at h
    split at h
    · cases h
    · exact ih h
    · rename_i hword
      obtain ⟨kind₁, hpaint, h⟩ := Option.bind_eq_some_iff.mp h
      have hlen : ((c.2.length.toNat : ℕ) : ℤ) = c.2.length := Int.toNat_of_nonneg c.2.length_pos.le
      obtain ⟨hin, hk⟩ | ⟨-, hk⟩ := paint_cases hpaint a
      · have hkind : kind a = .word := allWord_word hword ha (by rwa [hlen])
        obtain hsame | ⟨hcode, -⟩ := ih h
        · exact .inr ⟨hkind, hsame.trans hk⟩
        · rw [hk] at hcode
          cases hcode
      · rw [← hk]
        exact ih h

end Classify

namespace Emitter

/-- The regions lie in the image and do not overlap. -/
structure Separate (regions : List Region) : Prop where
  inside : ∀ r ∈ regions, 0 ≤ r.start ∧ r.stop ≤ SIZE
  apart : ∀ r ∈ regions, ∀ s ∈ regions, r = s ∨ r.stop ≤ s.start ∨ s.stop ≤ r.start

theorem Separate.covers {regions : List Region} (h : Separate regions) {r : Region} (hr : r ∈ regions) {a : ℕ}
    (ha : a < SIZE) : r.Covers a ↔ r.start ≤ a ∧ a < r.stop := by
  have hin := h.inside r hr
  constructor
  · rintro (hc | hc)
    · exact hc
    · omega
  · exact .inl

variable {e : Emitter}

/-- With separate regions a byte has a kind that no instruction can give it just when a region of that kind
covers it. -/
theorem kind_iff (hsep : Separate e.inputs.regions) (hkind : e.inputs.classify = some e.kind) {k : Kind}
    (hword : k ≠ .word) (hcode : k ≠ .code) {a : ℕ} (ha : a < SIZE) :
    e.kind a = k ↔ ∃ r ∈ e.inputs.regions, r.kind = k ∧ r.start ≤ a ∧ a < r.stop := by
  obtain ⟨painted, hpaint, hclaim⟩ := Option.bind_eq_some_iff.mp hkind
  have hpainted : e.kind a = k ↔ painted a = k := by
    obtain hsame | ⟨hw, hc⟩ := claimCode_cases hclaim ha
    · rw [hsame]
    · exact ⟨fun h ↦ absurd (h.symm.trans hc) hcode, fun h ↦ absurd (h.symm.trans hw) hword⟩
  rw [hpainted]
  constructor
  · intro h
    obtain ⟨r, hr, hcovers, hk⟩ | ⟨-, hk⟩ := paintRegions_cases hpaint a
    · exact ⟨r, hr, hk.symm.trans h, (hsep.covers hr ha).mp hcovers⟩
    · exact absurd (h.symm.trans hk) hword
  · rintro ⟨r, hr, rfl, hcovers⟩
    obtain ⟨s, hs, hcovers', hk⟩ | ⟨hnone, -⟩ := paintRegions_cases hpaint a
    · have hin := (hsep.covers hs ha).mp hcovers'
      obtain rfl | hapart | hapart := hsep.apart r hr s hs
      · exact hk
      · omega
      · omega
    · exact absurd ((hsep.covers hr ha).mpr hcovers) (hnone r hr)

/-- Separate fill regions of zeros that start off a boundary and end at the next one. -/
theorem fillsPad_of_regions (hsep : Separate e.inputs.regions) (hkind : e.inputs.classify = some e.kind)
    (hfill : ∀ r ∈ e.inputs.regions, r.kind = .fill → r.start % 256 ≠ 0 ∧ r.stop = (r.start / 256 + 1) * 256 ∧
      ∀ a : ℕ, r.start ≤ a → a < r.stop → e.img[a]? = some 0) : e.FillsPad := by
  intro a ha hfilled
  obtain ⟨r, hr, hk, hle, hlt⟩ := (kind_iff hsep hkind (by decide) (by decide) ha).mp hfilled
  obtain ⟨hoff, hstop, hzero⟩ := hfill r hr hk
  have hin := hsep.inside r hr
  refine ⟨hzero a hle hlt, by omega, ?_⟩
  by_cases hend : (a : ℤ) + 1 = r.stop
  · left
    omega
  · exact .inr ((kind_iff hsep hkind (by decide) (by decide) (by omega)).mpr ⟨r, hr, hk, by omega, by omega⟩)

/-- Separate blank regions of erased bytes that end with the image. -/
theorem blanksLast_of_regions (hsep : Separate e.inputs.regions) (hkind : e.inputs.classify = some e.kind)
    (hblank : ∀ r ∈ e.inputs.regions, r.kind = .blank → r.stop = SIZE ∧
      ∀ a : ℕ, r.start ≤ a → a < r.stop → e.img[a]? = some 0xFF) : e.BlanksLast := by
  intro a ha hblanked
  obtain ⟨r, hr, hk, hle, hlt⟩ := (kind_iff hsep hkind (by decide) (by decide) ha).mp hblanked
  obtain ⟨hstop, herased⟩ := hblank r hr hk
  refine ⟨herased a hle hlt, ?_⟩
  by_cases hend : a + 1 = SIZE
  · exact .inl hend
  · exact .inr ((kind_iff hsep hkind (by decide) (by decide) (by omega)).mpr ⟨r, hr, hk, by omega, by omega⟩)

end Emitter

end S8000.Monitor
