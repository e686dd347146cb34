import S8000.Restore.DumpReplay
import Mathlib.Data.Nat.Digits.Defs

namespace S8000.Restore

open Foundation Foundation.Bytes Foundation.Numerals Foundation.Namespace V7
open Dump (Text Dinode Inodes Blocks Resolves isDir isDot)

section Names

variable {number number' : ℕ}

theorem char_temporaryName {c : Char} (hc : c ∈ temporaryName number) :
    c.toNat < 128 ∧ c ≠ '\t' ∧ c ≠ '\n' ∧ c ≠ '/' ∧ c ≠ '\x00' := by
  have hstart : ∀ c ∈ ['.', '_', '_', 'R', '0'], c.toNat < 128 ∧ c ≠ '\t' ∧ c ≠ '\n' ∧ c ≠ '/' ∧ c ≠ '\x00' := by
    simp
  have hdigit : ∀ d < 16, (Nat.digitChar d).toNat < 128 ∧ Nat.digitChar d ≠ '\t' ∧ Nat.digitChar d ≠ '\n' ∧
      Nat.digitChar d ≠ '/' ∧ Nat.digitChar d ≠ '\x00' := by decide +kernel
  rw [temporaryName, List.mem_append, List.mem_append] at hc
  rcases hc with (hc | hc) | hc
  · exact hstart c (List.mem_append_left ['0'] hc)
  · rw [List.eq_of_mem_replicate hc]
    exact hstart '0' (by decide)
  · obtain ⟨d, hd, rfl⟩ := mem_toDigits (by decide) number hc
    exact hdigit d hd

theorem temporaryName_eq_cons (number : ℕ) : ∃ t, temporaryName number = '.' :: '_' :: t := ⟨_, rfl⟩

theorem not_isDot_temporaryName (number : ℕ) : ¬ isDot (temporaryName number) := by
  obtain ⟨t, ht⟩ := temporaryName_eq_cons number
  rw [ht]
  rintro (h | h) <;> simp at h

theorem isName_temporaryName (number : ℕ) : IsName (temporaryName number) where
  ne_nil := List.cons_ne_nil _ _
  slash hc := (char_temporaryName hc).2.2.2.1 rfl
  dotdot h := not_isDot_temporaryName number (.inr h)

theorem temporaryName_injective (h : temporaryName number = temporaryName number') : number = number' := by
  have hread : ∀ n, readDigits 16 0 ((temporaryName n).drop 4) = n := fun n ↦
    readDigits_padded (by decide) le_rfl _ n
  rw [← hread number, h, hread]

/-- A temporary name has room in a slot. -/
theorem length_temporaryName_le (h : number < 16 ^ 10) : (temporaryName number).length ≤ 14 := by
  have hlen := Nat.toDigits_length 16 number 10 (by decide) h
  have htotal : (temporaryName number).length =
      4 + (4 - (Nat.toDigits 16 number).length) + (Nat.toDigits 16 number).length := by
    rw [temporaryName, List.length_append, List.length_append, List.length_replicate]
    rfl
  omega

end Names

section Padded

variable {work name : Plain} {inodes : Inodes} {blocks : Blocks} {k : ℕ} {d : Dinode} {p : List Text} {n : Text}
  {path : Text}

/-- The padding section makes the name `n` in the directory `p`. -/
def Padded (inodes : Inodes) (blocks : Blocks) (p : List Text) (n : Text) : Prop :=
  ∃ k d number, Reached inodes blocks p k ∧ inodes.get? k = some d ∧ d.kind = Dump.ifdir ∧
    number < d.size / 16 - liveSlots blocks k d ∧ n = temporaryName number

/-- The sizes of directories, as the four bytes of a dump inode hold them. -/
structure Sized (inodes : Inodes) : Prop where
  bound {k : ℕ} {d : Dinode} : inodes.get? k = some d → d.kind = Dump.ifdir → d.size < 2 ^ 32
  slots {k : ℕ} {d : Dinode} : inodes.get? k = some d → d.kind = Dump.ifdir → 16 ∣ d.size

theorem Padded.not_isDot (h : Padded inodes blocks p n) : ¬ isDot n := by
  obtain ⟨k, d, number, -, -, -, -, rfl⟩ := h
  exact not_isDot_temporaryName number

variable (htree : Treelike inodes blocks)
include htree

/-- A path in a directory, as the padding section spells it. -/
theorem Treelike.stem_absolute (hp : Reached inodes blocks p k) (n : Text) :
    (if absolute p = ['/'] then [] else absolute p) ++ '/' :: n = absolute (p ++ [n]) := by
  rw [absolute_concat]
  congr 1
  exact if_congr (htree.absolute_eq_root hp) rfl rfl

theorem mem_temporary : path ∈ (dumpSections work name inodes blocks).temporary ↔
    ∃ p n, Padded inodes blocks p n ∧ path = absolute (p ++ [n]) := by
  simp only [Sections.temporary, List.mem_flatMap, List.mem_insertionSort, mem_padding, Padding.temporaryPaths,
    List.mem_map, List.mem_range]
  constructor
  · rintro ⟨x, ⟨k, d, first, aliases, hlisted, hdir, rfl⟩, number, hnumber, rfl⟩
    obtain ⟨p, rfl, hp⟩ := hlisted.head htree
    exact ⟨p, _, ⟨k, d, number, hp, hlisted.inode, hdir, hnumber, rfl⟩, htree.stem_absolute hp _⟩
  · rintro ⟨p, n, ⟨k, d, number, hp, hd, hdir, hnumber, rfl⟩, rfl⟩
    obtain ⟨d', first, aliases, hlisted⟩ := exists_listed htree hp
    obtain rfl := Option.some.inj (hd.symm.trans hlisted.inode)
    obtain ⟨q, rfl, hq⟩ := hlisted.head htree
    obtain rfl := htree.unique_path (hlisted.isDir_iff.mpr hdir) hp hq
    exact ⟨_, ⟨k, d, _, aliases, hlisted, hdir, rfl⟩, number, hnumber, htree.stem_absolute hp _⟩

/-- The characters of a temporary path. -/
theorem Padded.char_absolute (h : Padded inodes blocks p n) :
    ∀ c ∈ absolute (p ++ [n]), c.toNat < 128 ∧ c ≠ '\t' ∧ c ≠ '\n' ∧ c ≠ '\x00' := by
  obtain ⟨k, d, number, hp, -, -, -, rfl⟩ := h
  have hslash : '/'.toNat < 128 ∧ '/' ≠ '\t' ∧ '/' ≠ '\n' ∧ '/' ≠ '\x00' := by decide
  intro c hc
  rw [absolute_concat, List.mem_append, List.mem_cons] at hc
  rcases hc with hc | rfl | hc
  · split at hc
    · cases hc
    · exact htree.char_absolute hp c hc
  · exact hslash
  · obtain ⟨hascii, htab, hnl, -, hnul⟩ := char_temporaryName hc
    exact ⟨hascii, htab, hnl, hnul⟩

theorem Padded.encode_absolute (h : Padded inodes blocks p n) :
    encode (absolute (p ++ [n])) = absolute (p ++ [n]) :=
  encode_of_ascii fun c hc ↦ (h.char_absolute htree c hc).1

variable (hsized : Sized inodes)
include hsized

omit htree in
theorem Padded.length_le (h : Padded inodes blocks p n) : n.length ≤ 14 := by
  obtain ⟨k, d, number, -, hd, hdir, hnumber, rfl⟩ := h
  have hbound := hsized.bound hd hdir
  exact length_temporaryName_le (by omega)

theorem Padded.components_absolute (h : Padded inodes blocks p n) : components (absolute (p ++ [n])) = p ++ [n] := by
  have hlength := h.length_le hsized
  obtain ⟨k, d, number, hp, -, -, -, rfl⟩ := h
  have hname := isName_temporaryName number
  rw [absolute_concat, components_append, components_name hname.ne_nil hname.slash, htree.components_stem hp,
    List.take_of_length_le hlength]

theorem nodup_temporary : (dumpSections work name inodes blocks).temporary.Nodup := by
  have hpaths : (((dumpSections work name inodes blocks).padding.insertionSort fun a b ↦
      toLex (a.path, a.count) ≤ toLex (b.path, b.count)).map Padding.path).Nodup :=
    ((List.perm_insertionSort _ _).map _).nodup_iff.mpr (nodup_padding htree)
  have hsplit : ∀ x ∈ (dumpSections work name inodes blocks).padding, ∃ p, x.path = absolute p ∧
      ∀ path ∈ x.temporaryPaths, ∃ n, Padded inodes blocks p n ∧ path = absolute (p ++ [n]) := by
    intro x hx
    obtain ⟨k, d, first, aliases, hlisted, hdir, rfl⟩ := mem_padding.mp hx
    obtain ⟨p, rfl, hp⟩ := hlisted.head htree
    refine ⟨p, rfl, fun path hpath ↦ ?_⟩
    obtain ⟨number, hnumber, rfl⟩ := List.mem_map.mp hpath
    exact ⟨_, ⟨k, d, number, hp, hlisted.inode, hdir, List.mem_range.mp hnumber, rfl⟩, htree.stem_absolute hp _⟩
  rw [Sections.temporary, List.nodup_flatMap]
  refine ⟨fun x _ ↦ ?_, (List.pairwise_map.mp hpaths).imp_of_mem ?_⟩
  · refine List.nodup_range.map fun a b hab ↦ temporaryName_injective ?_
    exact List.cons_injective (List.append_cancel_left hab)
  · intro x y hx hy hne path hpx hpy
    obtain ⟨p, hp, hpath⟩ := hsplit x ((List.mem_insertionSort _).mp hx)
    obtain ⟨q, hq, hpath'⟩ := hsplit y ((List.mem_insertionSort _).mp hy)
    obtain ⟨n, hn, rfl⟩ := hpath path hpx
    obtain ⟨l, hl, heq⟩ := hpath' _ hpy
    have hsame := congrArg components heq
    rw [hn.components_absolute htree hsized, hl.components_absolute htree hsized] at hsame
    rw [hp, hq, (List.append_inj' hsame rfl).1] at hne
    exact hne rfl

end Padded

section Sown

variable {host : Host} {work name : Plain} {inodes : Inodes} {blocks : Blocks} {k : ℕ} {p : List Text} {n : Text}

/-- A temporary file has its path for a key. -/
def temporaryMade (path : Text) : Made Key := ⟨components path, some (.inr (components path))⟩

/-- No temporary entry has the name of an entry of the dump. -/
def Unclashed (inodes : Inodes) (blocks : Blocks) : Prop :=
  ∀ p k n, Reached inodes blocks p k → Padded inodes blocks p n → ∀ j, ¬ Dump.Entry inodes blocks k n j

variable (htree : Treelike inodes blocks) (hsized : Sized inodes)
include htree hsized

theorem sown_temporary (hclash : Unclashed inodes blocks) (hempty : host.files (encode (emptyPayload work name)) = some []) :
    Sown host (dumpLook inodes blocks host work name) (dumpNames inodes blocks work name)
      ((dumpSections work name inodes blocks).temporary.map fun path ↦ (temporaryLine work name path).entry)
      (dumpNames inodes blocks work name ++ (dumpSections work name inodes blocks).temporary.map temporaryMade) := by
  have hmap := @sown_map Key Text host (dumpLook inodes blocks host work name)
    (fun path ↦ (temporaryLine work name path).entry) (fun path ↦ some (temporaryMade path))
    (dumpSections work name inodes blocks).temporary (dumpNames inodes blocks work name)
  simp only [List.filterMap_eq_map'] at hmap
  refine hmap fun before path after hl ↦ ⟨nofun, fun m hm ↦ ?_⟩
  obtain rfl := Option.some.inj hm
  have hmem : ∀ {x}, x ∈ before ++ path :: after → ∃ p n, Padded inodes blocks p n ∧ x = absolute (p ++ [n]) := by
    intro x hx
    exact (mem_temporary htree).mp (hl ▸ hx)
  obtain ⟨p, n, hpad, rfl⟩ := hmem (List.mem_append_right _ List.mem_cons_self)
  have hself := hpad.components_absolute htree hsized
  have hbefore : ∀ x ∈ before, components x ≠ p ++ [n] := by
    intro x hx heq
    obtain ⟨q, l, hl', rfl⟩ := hmem (List.mem_append_left _ hx)
    have hnodup : (dumpSections work name inodes blocks).temporary.Nodup := nodup_temporary htree hsized
    rw [hl'.components_absolute htree hsized] at heq
    rw [hl, ← heq, List.nodup_append] at hnodup
    exact hnodup.2.2 _ hx _ List.mem_cons_self rfl
  have hfresh : ∀ m ∈ dumpNames inodes blocks work name ++ before.map temporaryMade, m.path ≠ p ++ [n] ∧
      m.key ≠ some (.inr (p ++ [n])) := by
    intro m hm
    rcases List.mem_append.mp hm with hm | hm
    · obtain ⟨q, i, hq, -, rfl⟩ := (mem_dumpNames htree).mp hm
      refine ⟨?_, ?_⟩
      · rintro rfl
        obtain ⟨j, hj, he, -⟩ := hq.parent
        exact hclash p j n hj hpad i he
      · rw [htree.dumpName_eq hq]
        by_cases hi : isDir inodes i <;> simp [hi]
    · obtain ⟨x, hx, rfl⟩ := List.mem_map.mp hm
      exact ⟨hbefore x hx, fun hkey ↦ hbefore x hx (Sum.inr.inj (Option.some.inj hkey))⟩
  have hparent : .directory p ∈ tags (dumpNames inodes blocks work name ++ before.map temporaryMade) [] := by
    obtain ⟨k, d, number, hp, hd, hdir, -⟩ := hpad
    by_cases hnil : p = []
    · rw [hnil]
      exact List.mem_cons_self
    · refine mem_tags.mpr (.inr ⟨_, List.mem_append_left _ ((mem_dumpNames htree).mpr ⟨p, k, hp, hnil, rfl⟩),
        List.not_mem_nil, ?_⟩)
      rw [htree.tag_dumpName hp, if_pos ((Dump.isDir_of_get? hd).mpr hdir)]
  refine ⟨p, n, ⟨hself, hpad.not_isDot, hparent, ?_⟩, ?_⟩
  · rintro hm
    obtain ⟨m, hm, hpath⟩ := List.mem_map.mp hm
    exact (hfresh m hm).1 (hpath.trans hself)
  · refine .file rfl ?_ hempty rfl ?_
    · exact congrArg components (hpad.encode_absolute htree)
    · rw [object_mem_tags, hself]
      rintro ⟨m, hm, hkey⟩
      exact (hfresh m hm).2 hkey

end Sown

end S8000.Restore
