import S8000.Restore.Manifest
import S8000.Foundation.Joining

namespace S8000.Restore

open Foundation Foundation.Bytes Foundation.Joining Foundation.Numerals
open Dump (Text)

section Encoding

/-- The UTF-8 bytes of a character. A C string is a text whose characters stand for its bytes. -/
def encodeChar (c : Char) : Text := (String.utf8EncodeChar c).map fun b ↦ Char.ofNat b.toNat

def encode (t : Text) : Text := t.flatMap encodeChar

@[simp] theorem encode_nil : encode [] = [] := rfl

@[simp] theorem encode_cons (c : Char) (t : Text) : encode (c :: t) = encodeChar c ++ encode t := rfl

@[simp] theorem encode_append (s t : Text) : encode (s ++ t) = encode s ++ encode t :=
  List.flatMap_append

theorem encodeChar_of_lt {c : Char} (h : c.toNat < 128) : encodeChar c = [c] := by
  have hv : c.val.toNat ≤ 0x7f := by
    have : c.val.toNat = c.toNat := rfl
    omega
  have hb : (UInt8.ofNat c.val.toNat).toNat = c.toNat := by
    rw [UInt8.toNat_ofNat']
    exact Nat.mod_eq_of_lt (by simpa using (show c.toNat < 256 by omega))
  rw [encodeChar, String.utf8EncodeChar]
  simp only [hv, if_true, List.map_cons, List.map_nil, hb, Char.ofNat_toNat]

theorem le_of_mem_encodeChar {c b : Char} (h : 128 ≤ c.toNat) (hb : b ∈ encodeChar c) :
    128 ≤ b.toNat := by
  have hv : ¬ c.val.toNat ≤ 0x7f := by
    have : c.val.toNat = c.toNat := rfl
    omega
  obtain ⟨x, hx, rfl⟩ := List.mem_map.mp hb
  have hx8 : 128 ≤ x.toNat := by
    rw [String.utf8EncodeChar] at hx
    simp only [hv, if_false] at hx
    split_ifs at hx <;> simp only [List.mem_cons, List.not_mem_nil, or_false] at hx <;>
      rcases hx with rfl | rfl | rfl | rfl <;>
      · rw [UInt8.toNat_ofNat']
        norm_num
        omega
  have hvalid : x.toNat.isValidChar := .inl (x.toNat_lt.trans (by decide))
  rw [Char.ofNat, dif_pos hvalid]
  exact hx8

/-- The ASCII characters of a text stand for themselves. -/
theorem mem_encode {c : Char} (h : c.toNat < 128) {t : Text} : c ∈ encode t ↔ c ∈ t := by
  simp only [encode, List.mem_flatMap]
  constructor
  · rintro ⟨x, hx, hc⟩
    by_cases hlt : x.toNat < 128
    · rw [encodeChar_of_lt hlt, List.mem_singleton] at hc
      rwa [hc]
    · have := le_of_mem_encodeChar (not_lt.mp hlt) hc
      omega
  · intro hc
    exact ⟨c, hc, by rw [encodeChar_of_lt h]; exact List.mem_singleton_self c⟩

theorem ascii_of_all {t : Text} (h : t.all (·.toNat < 128)) : ∀ c ∈ t, c.toNat < 128 := by
  simpa using h

theorem encode_of_ascii {t : Text} (h : ∀ c ∈ t, c.toNat < 128) : encode t = t := by
  induction t with
  | nil => rfl
  | cons c t ih =>
    rw [encode_cons, encodeChar_of_lt (h c List.mem_cons_self),
      ih fun c hc ↦ h c (List.mem_cons_of_mem _ hc)]
    rfl

end Encoding

section Parse

/-- `struct entry`; `kind` is the first character of its field. -/
structure Entry where
  kind : Char
  mode : BitVec 32
  uid : BitVec 32
  gid : BitVec 32
  atime : ℤ
  mtime : ℤ
  aux : Text
  path : Text
deriving DecidableEq

/-- A C string ends at the first NUL. -/
def cstring (line : Text) : Text := line.takeWhile (· ≠ '\x00')

/-- The parts of a string around the first `c`. -/
def strchr (c : Char) : Text → Option (Text × Text)
  | [] => none
  | x :: s => if x = c then some ([], s) else (strchr c s).map fun p ↦ (x :: p.1, p.2)

/-- `n` fields that end at a tab and one that ends at a newline or with the string. -/
def splitFields : ℕ → Text → Option (List Text)
  | 0, p => some [((strchr '\n' p).map Prod.fst).getD p]
  | n + 1, p => (strchr '\t' p).bind fun q ↦ (splitFields n q.2).map (q.1 :: ·)

def parseEntry (line : Text) : Option Entry :=
  match splitFields 7 (cstring line) with
  | some [kind, mode, uid, gid, atime, mtime, aux, path] => some
    { kind := kind.headD '\x00'
      mode := BitVec.ofNat 32 (strtoul 8 mode)
      uid := BitVec.ofNat 32 (strtoul 10 uid)
      gid := BitVec.ofNat 32 (strtoul 10 gid)
      atime := strtoll 10 atime
      mtime := strtoll 10 mtime
      aux := aux
      path := path }
  | _ => none

/-- What `getline` returns one after the other. -/
def getlines : Text → List Text
  | [] => []
  | c :: s =>
    if c = '\n' then [c] :: getlines s
    else match getlines s with
      | [] => [[c]]
      | l :: ls => (c :: l) :: ls

/-- `line[0] == '#' || line[0] == '\n'`. -/
def isSkipped (line : Text) : Bool := line.head? = some '#' ∨ line.head? = some '\n'

/-- The entries of a manifest; `none` is a bad line. -/
def readManifest (file : Text) : Option (List Entry) :=
  ((getlines file).filter fun l ↦ !isSkipped l).mapM parseEntry

end Parse

section RoundTrip

theorem strchr_append {c : Char} {s : Text} (h : c ∉ s) (t : Text) :
    strchr c (s ++ c :: t) = some (s, t) := by
  induction s with
  | nil => exact if_pos rfl
  | cons x s ih =>
    rw [List.mem_cons, not_or] at h
    rw [List.cons_append, strchr, if_neg (Ne.symm h.1), ih h.2]
    rfl

theorem splitFields_intercalate {fields : List Text} {last : Text}
    (h : ∀ x ∈ fields, '\t' ∉ x) (hlast : '\n' ∉ last) :
    splitFields fields.length (['\t'].intercalate (fields ++ [last]) ++ ['\n']) =
      some (fields ++ [last]) := by
  induction fields with
  | nil => simp [splitFields, strchr_append hlast]
  | cons x fields ih =>
    obtain ⟨y, ys, hys⟩ := List.exists_cons_of_ne_nil (List.append_ne_nil_of_right_ne_nil fields
      (List.cons_ne_nil last []))
    have hjoin : ['\t'].intercalate (x :: fields ++ [last]) ++ ['\n'] =
        x ++ '\t' :: (['\t'].intercalate (fields ++ [last]) ++ ['\n']) := by
      rw [List.cons_append, hys, List.intercalate_cons_cons]
      simp
    rw [hjoin, List.length_cons, splitFields, strchr_append (h x List.mem_cons_self), Option.bind_some,
      ih fun x hx ↦ h x (List.mem_cons_of_mem _ hx)]
    rfl

theorem getlines_append {l : Text} (h : '\n' ∉ l) (t : Text) :
    getlines (l ++ '\n' :: t) = (l ++ ['\n']) :: getlines t := by
  induction l with
  | nil => exact if_pos rfl
  | cons c l ih =>
    rw [List.mem_cons, not_or] at h
    rw [List.cons_append, getlines, if_neg (Ne.symm h.1), ih h.2]
    rfl

theorem encode_intercalate (sep : Text) (xs : List Text) :
    encode (sep.intercalate xs) = (encode sep).intercalate (xs.map encode) := by
  induction xs with
  | nil => rfl
  | cons x xs ih =>
    cases xs with
    | nil => simp
    | cons y xs =>
      rw [List.intercalate_cons_cons, List.map_cons, List.map_cons, List.intercalate_cons_cons,
        encode_append, encode_append, ih]
      rfl

namespace Line

/-- The entry that `parse_entry` makes of a line. -/
def entry (l : Line) : Entry where
  kind := l.kind.letter
  mode := BitVec.ofNat 32 (l.metadata.mode &&& 0o7777)
  uid := BitVec.ofNat 32 (strtoul 10 (decimal l.metadata.uid))
  gid := BitVec.ofNat 32 (strtoul 10 (decimal l.metadata.gid))
  atime := strtoll 10 (decimal l.metadata.atime)
  mtime := strtoll 10 (decimal l.metadata.mtime)
  aux := encode l.aux
  path := encode l.path

/-- The two free fields of a line are C strings. -/
def Plain (l : Line) : Prop := '\x00' ∉ l.aux ∧ '\x00' ∉ l.path

instance (l : Line) : Decidable l.Plain := inferInstanceAs (Decidable (_ ∧ _))

/-- The characters of the fields that hold a letter or a number. -/
theorem ascii_of_digit {d : ℕ} (h : d < 10) :
    (Nat.digitChar d).toNat < 128 ∧ Nat.digitChar d ≠ '\x00' := by
  interval_cases d <;> decide

theorem ascii_decimal {i : ℤ} {c : Char} (h : c ∈ decimal i) : c.toNat < 128 ∧ c ≠ '\x00' := by
  rcases mem_decimal h with rfl | ⟨d, hd, rfl⟩
  · decide
  · exact ascii_of_digit hd

theorem ascii_octal {n : ℕ} {c : Char} (h : c ∈ Nat.toDigits 8 n) : c.toNat < 128 ∧ c ≠ '\x00' := by
  obtain ⟨d, hd, rfl⟩ := mem_toDigits (by decide) n h
  exact ascii_of_digit (by omega)

theorem ascii_letter (k : Kind) : k.letter.toNat < 128 ∧ k.letter ≠ '\x00' := by
  cases k <;> decide

/-- The fields as the file holds them. -/
theorem map_encode_fields (l : Line) : l.fields.map encode =
    [[l.kind.letter], Nat.toDigits 8 (l.metadata.mode &&& 0o7777), decimal l.metadata.uid,
      decimal l.metadata.gid, decimal l.metadata.atime, decimal l.metadata.mtime] ++
      [encode l.aux] ++ [encode l.path] := by
  have hd : ∀ i, encode (decimal i) = decimal i := fun i ↦
    encode_of_ascii fun c hc ↦ (ascii_decimal hc).1
  have ho : encode (Nat.toDigits 8 (l.metadata.mode &&& 0o7777)) = _ :=
    encode_of_ascii fun c hc ↦ (ascii_octal hc).1
  have hk : encode [l.kind.letter] = [l.kind.letter] :=
    encode_of_ascii fun c hc ↦ List.mem_singleton.mp hc ▸ (ascii_letter _).1
  simp only [fields, List.map_cons, List.map_nil, hd, ho, hk, List.cons_append, List.nil_append]

variable {l : Line}

theorem nul_notMem_fields (h : l.Plain) : ∀ x ∈ l.fields, '\x00' ∉ x := by
  intro x hx hc
  simp only [fields, List.mem_cons, List.not_mem_nil, or_false] at hx
  rcases hx with rfl | rfl | rfl | rfl | rfl | rfl | rfl | rfl
  · exact (ascii_letter l.kind).2 (List.mem_singleton.mp hc).symm
  · exact (ascii_octal hc).2 rfl
  · exact (ascii_decimal hc).2 rfl
  · exact (ascii_decimal hc).2 rfl
  · exact (ascii_decimal hc).2 rfl
  · exact (ascii_decimal hc).2 rfl
  · exact h.1 hc
  · exact h.2 hc

/-- A character below 128 that no field holds is only found where a line puts it. -/
theorem notMem_encode_fields {c : Char} (hc : c.toNat < 128) (h : ∀ x ∈ l.fields, c ∉ x) :
    ∀ x ∈ l.fields.map encode, c ∉ x := by
  intro x hx
  obtain ⟨y, hy, rfl⟩ := List.mem_map.mp hx
  exact (mem_encode hc).not.mpr (h y hy)

theorem encode_text (l : Line) : encode l.text = ['\t'].intercalate (l.fields.map encode) ++ ['\n'] := by
  rw [text, encode_append, encode_intercalate]
  rfl

theorem parseEntry_text (hsafe : l.Safe) (hplain : l.Plain) :
    parseEntry (encode l.text) = some l.entry := by
  have hnul : '\x00' ∉ encode l.text := by
    rw [encode_text, List.mem_append, not_or]
    refine ⟨fun h ↦ ?_, by decide⟩
    rcases mem_of_mem_intercalate h with h | ⟨x, hx, h⟩
    · exact absurd h (by decide)
    · exact notMem_encode_fields (by decide) (nul_notMem_fields hplain) x hx h
  have hcstring : cstring (encode l.text) = encode l.text :=
    List.takeWhile_eq_self_iff.mpr fun c hc ↦ decide_eq_true fun h : c = '\x00' ↦ hnul (h ▸ hc)
  have hsplit : splitFields 7 (encode l.text) = some (l.fields.map encode) := by
    rw [encode_text]
    have htab := notMem_encode_fields (by decide) fun x hx ↦ (hsafe x hx).1
    have hnl := notMem_encode_fields (by decide) fun x hx ↦ (hsafe x hx).2
    rw [map_encode_fields] at htab hnl ⊢
    exact splitFields_intercalate (fun x hx ↦ htab x (List.mem_append_left _ hx))
      (hnl _ (by simp))
  have hmode : strtoul 8 (Nat.toDigits 8 (l.metadata.mode &&& 0o7777)) = l.metadata.mode &&& 0o7777 :=
    strtoul_toDigits (by decide) (by decide) (lt_of_le_of_lt Nat.and_le_right (by decide))
  rw [parseEntry, hcstring, hsplit, map_encode_fields]
  simp only [List.cons_append, List.nil_append, hmode]
  rfl

theorem getlines_text (hsafe : l.Safe) (t : Text) :
    getlines (encode l.text ++ t) = encode l.text :: getlines t := by
  rw [encode_text, List.append_assoc]
  refine getlines_append (fun h ↦ ?_) t
  rcases mem_of_mem_intercalate h with h | ⟨x, hx, h⟩
  · exact absurd h (by decide)
  · exact notMem_encode_fields (by decide) (fun x hx ↦ (hsafe x hx).2) x hx h

theorem isSkipped_text (l : Line) : isSkipped (encode l.text) = false := by
  have hhead : (encode l.text).head? = some l.kind.letter := by
    rw [encode_text, map_encode_fields]
    rfl
  rw [isSkipped, hhead]
  cases l.kind <;> decide

end Line

theorem getlines_manifestHeader (t : Text) :
    getlines (encode manifestHeader ++ t) = manifestHeader :: getlines t := by
  rw [encode_of_ascii (ascii_of_all (by decide))]
  exact getlines_append (l := manifestHeader.dropLast) (by decide) t

/-- `getline` returns the header and then the lines as they were written. -/
theorem getlines_texts {ls : List Line} (hsafe : ∀ l ∈ ls, l.Safe) :
    getlines (encode (manifestHeader ++ (ls.map Line.text).flatten)) =
      manifestHeader :: ls.map fun l ↦ encode l.text := by
  rw [encode_append, getlines_manifestHeader]
  congr 1
  induction ls with
  | nil => rfl
  | cons l ls ih =>
    rw [List.map_cons, List.flatten_cons, encode_append, Line.getlines_text (hsafe l List.mem_cons_self),
      ih fun l hl ↦ hsafe l (List.mem_cons_of_mem _ hl), List.map_cons]

/-- What the replay reads is what was written. -/
theorem readManifest_lines {ls : List Line} (hsafe : ∀ l ∈ ls, l.Safe) (hplain : ∀ l ∈ ls, l.Plain) :
    readManifest (encode (manifestHeader ++ (ls.map Line.text).flatten)) = some (ls.map Line.entry) := by
  have hkept : ((ls.map fun l ↦ encode l.text).filter fun l ↦ !isSkipped l) =
      ls.map fun l ↦ encode l.text := by
    refine List.filter_eq_self.mpr fun t ht ↦ ?_
    obtain ⟨l, -, rfl⟩ := List.mem_map.mp ht
    rw [Line.isSkipped_text]
    rfl
  rw [readManifest, getlines_texts hsafe, List.filter_cons_of_neg (by decide), hkept]
  clear hkept
  induction ls with
  | nil => rfl
  | cons l ls ih =>
    rw [List.map_cons, List.mapM_cons, Line.parseEntry_text (hsafe l List.mem_cons_self)
        (hplain l List.mem_cons_self),
      ih (fun l hl ↦ hsafe l (List.mem_cons_of_mem _ hl)) fun l hl ↦ hplain l (List.mem_cons_of_mem _ hl)]
    rfl

end RoundTrip

end S8000.Restore
