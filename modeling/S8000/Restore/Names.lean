import S8000.Restore.Growth
import Mathlib.Data.List.DropRight

namespace S8000.Restore

open Foundation Foundation.Bytes Foundation.Joining V7
open Dump (Text)

section Components

theorem components_append (s t : Text) : components (s ++ '/' :: t) = components s ++ components t := by
  rw [components, List.splitOn_append_cons_self, List.filter_append, List.map_append, components, components]

theorem components_nil : components [] = [] := rfl

theorem components_slash (s : Text) : components (s ++ ['/']) = components s := by
  rw [components_append, components_nil, List.append_nil]

theorem components_name {n : Text} (hn : n ≠ []) (hs : '/' ∉ n) : components n = [n.take 14] := by
  rw [components, List.splitOn_eq_singleton hs, List.filter_cons_of_pos (by simpa using hn)]
  rfl

/-- Slashes at the end of a path make no difference. -/
theorem components_rdropWhile (s : Text) : components (s.rdropWhile (· = '/')) = components s := by
  induction s using List.reverseRecOn with
  | nil => rfl
  | append_singleton s c ih =>
    by_cases hc : c = '/'
    · rw [List.rdropWhile_concat_pos _ _ _ (by simpa using hc), ih, hc, components_slash]
    · rw [List.rdropWhile_concat_neg _ _ _ (by simpa using hc)]

/-- The parent of a path is what stands before its last slash. -/
theorem components_dirname {s n : Text} (hn : n ≠ []) (hs : '/' ∉ n) :
    components (dirname (s ++ '/' :: n)) = components s := by
  have hlast : (s ++ '/' :: n).rdropWhile (· = '/') = s ++ '/' :: n := by
    obtain ⟨m, c, rfl⟩ := List.eq_nil_or_concat n |>.resolve_left hn
    rw [List.concat_eq_append] at hs ⊢
    have hc : c ≠ '/' := fun h ↦ hs (by simp [h])
    rw [show s ++ '/' :: (m ++ [c]) = (s ++ '/' :: m) ++ [c] by simp]
    exact List.rdropWhile_concat_neg _ _ _ (by simpa using hc)
  have hname : (s ++ '/' :: n).rdropWhile (· ≠ '/') = s ++ ['/'] := by
    clear hlast hn
    induction n using List.reverseRecOn with
    | nil => exact List.rdropWhile_concat_neg _ _ _ (by simp)
    | append_singleton m c ih =>
      rw [List.mem_append, not_or, List.mem_singleton] at hs
      rw [show s ++ '/' :: (m ++ [c]) = (s ++ '/' :: m) ++ [c] by simp,
        List.rdropWhile_concat_pos _ _ _ (by simpa using Ne.symm hs.2)]
      exact ih hs.1
  unfold dirname
  rw [hlast, hname, List.rdropWhile_concat_pos _ _ _ (by simp)]
  dsimp only
  split
  · exact components_rdropWhile s
  · rename_i hstem
    rw [not_not] at hstem
    have hslash : (s ++ '/' :: n).head? = some '/' := by
      cases s with
      | nil => rfl
      | cons c s =>
        have hc := List.rdropWhile_eq_nil_iff.mp hstem c List.mem_cons_self
        rw [List.cons_append, List.head?_cons, of_decide_eq_true hc]
    rw [if_pos hslash, ← components_rdropWhile s, hstem]
    rfl

theorem mkdirPath {s n : Text} (hn : n ≠ []) (hs : '/' ∉ n) :
    MkdirPath (s ++ '/' :: n) (components s) (n.take 14) where
  self := by rw [components_append, components_name hn hs]
  dot := by rw [components_append, components_append, components_name hn hs]; rfl
  dotdot := by rw [components_append, components_append, components_name hn hs]; rfl
  dirname := components_dirname hn hs

end Components

section Absolute

/-- A component of a path that a writer accepts. -/
structure IsName (p : Text) : Prop where
  ne_nil : p ≠ []
  slash : '/' ∉ p
  dotdot : p ≠ ['.', '.']

theorem absolute_concat (ps : List Text) (p : Text) :
    absolute (ps ++ [p]) = (if ps = [] then [] else absolute ps) ++ '/' :: p := by
  by_cases hps : ps = []
  · simp [absolute, hps]
  · rw [absolute, intercalate_concat hps, if_neg hps, absolute]
    simp

theorem components_absolute {ps : List Text} (h : ∀ p ∈ ps, IsName p) :
    components (absolute ps) = ps.map (·.take 14) := by
  induction ps using List.reverseRecOn with
  | nil => rfl
  | append_singleton ps p ih =>
    have hp := h p (by simp)
    have hps := ih fun p hp ↦ h p (List.mem_append_left _ hp)
    rw [absolute_concat, components_append, components_name hp.ne_nil hp.slash, List.map_append]
    split
    · rename_i hnil
      rw [hnil]
      rfl
    · rw [hps]
      rfl

theorem encode_absolute (ps : List Text) : encode (absolute ps) = absolute (ps.map encode) := by
  rw [absolute, encode_cons, encodeChar_of_lt (by decide), encode_intercalate]
  rfl

theorem encode_ne_nil {p : Text} (h : p ≠ []) : encode p ≠ [] := by
  cases p with
  | nil => exact absurd rfl h
  | cons c p =>
    intro hnil
    rw [encode_cons, List.append_eq_nil_iff, encodeChar, List.map_eq_nil_iff] at hnil
    exact String.utf8EncodeChar_ne_nil hnil.1

/-- A text that is encoded as ASCII is ASCII. -/
theorem eq_of_encode_eq {p q : Text} (h : encode p = q) (hq : ∀ c ∈ q, c.toNat < 128) : p = q := by
  subst h
  refine (encode_of_ascii fun c hc ↦ ?_).symm
  by_contra hlt
  obtain ⟨b, hb⟩ := List.exists_mem_of_ne_nil (encodeChar c) fun hnil ↦
    encode_ne_nil (List.cons_ne_nil c []) (by rw [encode_cons, hnil]; rfl)
  have hbig := le_of_mem_encodeChar (not_lt.mp hlt) hb
  have hsmall := hq b (List.mem_flatMap.mpr ⟨c, hc, hb⟩)
  omega

theorem IsName.encode {p : Text} (h : IsName p) : IsName (encode p) where
  ne_nil := encode_ne_nil h.ne_nil
  slash := (mem_encode (by decide)).not.mpr h.slash
  dotdot hdots := h.dotdot (eq_of_encode_eq hdots (ascii_of_all (by decide)))

/-- A long name that is cut is still long. -/
theorem take_ne_dotdot {p : Text} (h : p ≠ ['.', '.']) : p.take 14 ≠ ['.', '.'] := by
  intro hp
  have hlen : p.length ≤ 14 := by
    by_contra hlt
    have := congrArg List.length hp
    rw [List.length_take, List.length_cons, List.length_singleton] at this
    omega
  rw [List.take_of_length_le hlen] at hp
  exact h hp

theorem count_absolute {ps : List Text} (hne : ps ≠ []) (h : ∀ p ∈ ps, IsName p) :
    (absolute ps).count '/' = ps.length := by
  induction ps using List.reverseRecOn with
  | nil => exact absurd rfl hne
  | append_singleton ps p ih =>
    have hp : p.count '/' = 0 := List.count_eq_zero.mpr (h p (by simp)).slash
    rw [absolute_concat, List.count_append, List.count_cons_self, hp, List.length_append]
    split
    · rename_i hnil
      rw [hnil]
      rfl
    · rename_i hps
      rw [ih hps fun p hp ↦ h p (List.mem_append_left _ hp)]
      rfl

end Absolute

end S8000.Restore
