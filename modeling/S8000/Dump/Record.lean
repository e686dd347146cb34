import S8000.Foundation.Bytes
import S8000.Foundation.Dict

namespace S8000.Dump

open Foundation Foundation.Bytes

/-- The size of a dump record, `TP_BSIZE` of the V7 dump format. -/
def recordSize : ℕ := 512

/-- A record of a dump tape. -/
@[ext] structure Record where
  bytes : List Byte
  length_eq : bytes.length = recordSize

namespace Record

instance : DecidableEq Record := fun r s ↦ decidable_of_iff (r.bytes = s.bytes) Record.ext_iff.symm

instance : Inhabited Record := ⟨⟨List.replicate recordSize 0, List.length_replicate⟩⟩

/-- The complete records a run of bytes holds; a shorter tail is left out. -/
def split (bytes : List Byte) : List Record :=
  if h : recordSize ≤ bytes.length then
    ⟨bytes.take recordSize, by simp [h]⟩ :: split (bytes.drop recordSize)
  else []
termination_by bytes.length
decreasing_by
  simp only [List.length_drop]
  have : 0 < recordSize := by decide
  omega

end Record

/-- The tape map of consecutive records from record number `n` on. -/
def numbered (tape : Dict ℕ Record) (n : ℕ) : List Record → Dict ℕ Record
  | [] => tape
  | r :: rs => numbered (tape.set n r) (n + 1) rs

theorem get?_numbered (tape : Dict ℕ Record) (n : ℕ) (rs : List Record) (m : ℕ) :
    (numbered tape n rs).get? m =
      if n ≤ m ∧ m < n + rs.length then rs[m - n]? else tape.get? m := by
  induction rs generalizing tape n with
  | nil => simp [numbered]
  | cons r rs ih =>
    rw [numbered, ih, Dict.get?_set]
    by_cases hm : n = m
    · subst hm
      simp
    · by_cases hlt : n + 1 ≤ m ∧ m < n + 1 + rs.length
      · have hs : m - n = (m - (n + 1)) + 1 := by omega
        rw [if_pos hlt, if_pos (by simp only [List.length_cons]; omega), hs, List.getElem?_cons_succ]
      · rw [if_neg hlt, if_neg hm, if_neg (by simp only [List.length_cons]; omega)]

end S8000.Dump
