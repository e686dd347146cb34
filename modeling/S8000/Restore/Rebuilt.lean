import S8000.Restore.Temporary

namespace S8000.Restore

open Foundation Foundation.Bytes Foundation.Numerals Foundation.Namespace V7
open Dump (Text Dinode Inodes Blocks Resolves direntsOf isDir isDot)

namespace V7

variable {κ : Type} {place : Tag κ → ℕ} {made : List (Made κ)} {gone : List (List Text)} {p : List Text} {i : ℕ}

theorem mem_slotsOf_dot (ho : Orderly made gone) :
    some (['.'], i) ∈ slotsOf place made gone p ↔ i = place (.directory p) := by
  rw [← lookup_eq_some (distinct_slotsOf ho p), slotsOf, lookup, if_pos rfl, Option.some.injEq]
  exact eq_comm

theorem mem_slotsOf_dotdot (ho : Orderly made gone) :
    some (['.', '.'], i) ∈ slotsOf place made gone p ↔ i = place (.directory p.dropLast) := by
  rw [← lookup_eq_some (distinct_slotsOf ho p), slotsOf, lookup, if_neg (by decide), lookup, if_pos rfl,
    Option.some.injEq]
  exact eq_comm

/-- An empty file system: the root with its two entries. -/
structure Blank (fs : Fs) : Prop where
  root : fs.slots? rootIno = some [some (['.'], rootIno), some (['.', '.'], rootIno)]
  only {i : ℕ} : i ∈ fs.inodes → i = rootIno

theorem Blank.planted [DecidableEq κ] {fs : Fs} (h : Blank fs) (look : κ → Inode) :
    Planted (fun _ ↦ rootIno) look [] [] fs where
  root := rfl
  inj {s t} hs ht _ := by
    rw [tags, List.filter_nil, List.map_nil, List.mem_singleton] at hs ht
    rw [hs, ht]
  only hi := ⟨.directory [], List.mem_cons_self, (h.only hi).symm⟩
  dir _ := h.root
  obj hk := by
    rw [tags, List.filter_nil, List.map_nil, List.mem_singleton] at hk
    cases hk

theorem orderly_nil : Orderly ([] : List (Made κ)) [] := ⟨nofun, List.nodup_nil⟩

end V7

section Rebuilt

variable {inodes : Inodes} {blocks : Blocks} {fs : Fs} {k l : ℕ} {d : Dinode} {p q : List Text} {n : Text}

/-- The file system holds the tree of the dump, its inodes under the numbers `ρ`. -/
structure SameTree (inodes : Inodes) (blocks : Blocks) (fs : Fs) (ρ : ℕ → ℕ) : Prop where
  root : ρ 2 = rootIno
  injective {p q : List Text} {k l : ℕ} : Reached inodes blocks p k → Reached inodes blocks q l → ρ k = ρ l → k = l
  only {i : ℕ} : i ∈ fs.inodes → ∃ p k, Reached inodes blocks p k ∧ ρ k = i
  directory {p : List Text} {k : ℕ} : Reached inodes blocks p k → isDir inodes k →
    ∃ ss, fs.slots? (ρ k) = some ss ∧ ss.reduceOption.Perm ((direntsOf inodes blocks k).map fun e ↦ (e.2, ρ e.1))
  object {p : List Text} {k : ℕ} {d : Dinode} : Reached inodes blocks p k → inodes.get? k = some d → ¬ isDir inodes k →
    (fs.inodes.get? (ρ k)).map Inode.content = some (dumpContent inodes blocks k d)

/-- Every directory has its two entries. -/
def Dotted (inodes : Inodes) (blocks : Blocks) : Prop :=
  ∀ p k n, Reached inodes blocks p k → isDir inodes k → isDot n → ∃ j, Dump.Entry inodes blocks k n j

/-- What an inode of the dump is in the replay. -/
def tagOf (inodes : Inodes) (blocks : Blocks) (k : ℕ) : Tag Key :=
  if isDir inodes k then .directory (components (((Dump.buildAllPaths inodes blocks ['/']).getD k []).headD []))
  else .object (.inl k)

variable (htree : Treelike inodes blocks)
include htree

theorem Treelike.tagOf_eq (hp : Reached inodes blocks p k) :
    tagOf inodes blocks k = if isDir inodes k then .directory p else .object (.inl k) := by
  rw [tagOf]
  by_cases hk : isDir inodes k
  · rw [if_pos hk, if_pos hk]
    have hmem := htree.mem_paths.mpr ⟨p, rfl, hp⟩
    cases hpaths : (Dump.buildAllPaths inodes blocks ['/']).getD k [] with
    | nil =>
      rw [hpaths] at hmem
      cases hmem
    | cons path paths =>
      obtain ⟨q, rfl, hq⟩ := htree.mem_paths.mp (hpaths ▸ List.mem_cons_self)
      rw [List.headD_cons, htree.components_absolute hq, htree.unique_path hk hp hq]
  · rw [if_neg hk, if_neg hk]

theorem Treelike.tagOf_injective (hp : Reached inodes blocks p k) (hq : Reached inodes blocks q l)
    (h : tagOf inodes blocks k = tagOf inodes blocks l) : k = l := by
  rw [htree.tagOf_eq hp, htree.tagOf_eq hq] at h
  split at h <;> split at h
  · obtain rfl := Tag.directory.inj h
    exact htree.resolves_unique hp.2 hq.2
  · cases h
  · cases h
  · exact Sum.inl.inj (Tag.object.inj h)

/-- `..` leads to the directory before. -/
theorem Treelike.reached_dropLast (hp : Reached inodes blocks p k) (he : Dump.Entry inodes blocks k ['.', '.'] l) :
    Reached inodes blocks p.dropLast l ∧ isDir inodes l := by
  rcases htree.dotdot he with ⟨rfl, rfl⟩ | ⟨n, hn, hl⟩
  · have hroot : Reached inodes blocks [] 2 := ⟨nofun, rfl⟩
    obtain rfl := htree.unique_path htree.root hp hroot
    exact ⟨hp, htree.root⟩
  · have hmem := hl.mem_naming hn
    have hne : p ≠ [] := by
      rintro rfl
      obtain rfl : 2 = k := hp.2
      rw [htree.once.root] at hmem
      cases hmem
    obtain ⟨q, m, rfl⟩ := (List.eq_nil_or_concat p).resolve_left hne
    rw [List.concat_eq_append] at *
    obtain ⟨i, hq, hi, hm⟩ := hp.parent
    -- a directory is named once
    have hk : k ≠ 2 := by
      rintro rfl
      rw [htree.once.root] at hmem
      cases hmem
    obtain ⟨e, hone⟩ := List.length_eq_one_iff.mp (htree.once.once k he.isDir hk)
    have hmem' := hi.mem_naming hm
    rw [hone, List.mem_singleton] at hmem hmem'
    rw [← hmem'] at hmem
    obtain rfl := (Prod.mk.inj (Prod.mk.inj hmem).2).1
    rw [List.dropLast_concat]
    exact ⟨hq, hl.isDir⟩

section Planted

variable {host : Host} {work name : Plain} {place : Tag Key → ℕ} {made : List (Made Key)} {gone : List (List Text)}
  {t : Tag Key}

/-- The names that are there are those of the dump. -/
def Remaining (work name : Plain) (inodes : Inodes) (blocks : Blocks) (made : List (Made Key)) (gone : List (List Text)) :
    Prop :=
  ∀ m, m ∈ made ∧ m.path ∉ gone ↔ m ∈ dumpNames inodes blocks work name

theorem Treelike.tag_dumpName_eq (hp : Reached inodes blocks p k) :
    (dumpName inodes blocks p).tag = tagOf inodes blocks k := by
  rw [htree.tag_dumpName hp, htree.tagOf_eq hp]

variable (hrest : Remaining work name inodes blocks made gone)
include hrest

theorem mem_tags_remaining : t ∈ tags made gone ↔ ∃ p k, Reached inodes blocks p k ∧ t = tagOf inodes blocks k := by
  rw [mem_tags]
  constructor
  · rintro (rfl | ⟨m, hm, hlive, rfl⟩)
    · have hroot : Reached inodes blocks [] 2 := ⟨nofun, rfl⟩
      exact ⟨[], 2, hroot, by rw [htree.tagOf_eq hroot, if_pos htree.root]⟩
    · obtain ⟨p, k, hp, -, rfl⟩ := (mem_dumpNames htree).mp ((hrest m).mp ⟨hm, hlive⟩)
      exact ⟨p, k, hp, htree.tag_dumpName_eq hp⟩
  · rintro ⟨p, k, hp, rfl⟩
    by_cases hne : p = []
    · subst hne
      rw [htree.tagOf_eq hp, if_pos (htree.root_isDir hp)]
      exact .inl rfl
    · obtain ⟨hm, hlive⟩ := (hrest _).mpr ((mem_dumpNames htree).mpr ⟨p, k, hp, hne, rfl⟩)
      exact .inr ⟨_, hm, hlive, htree.tag_dumpName_eq hp⟩

theorem mem_slotsOf_remaining (ho : Orderly made gone) (hdotted : Dotted inodes blocks) (hp : Reached inodes blocks p k)
    (hk : isDir inodes k) {i : ℕ} : some (n, i) ∈ slotsOf place made gone p ↔
      ∃ j, Dump.Entry inodes blocks k n j ∧ place (tagOf inodes blocks j) = i := by
  by_cases hdots : isDot n
  · obtain ⟨j, hj⟩ := hdotted p k n hp hk hdots
    have hiff : (∃ j, Dump.Entry inodes blocks k n j ∧ place (tagOf inodes blocks j) = i) ↔
        i = place (tagOf inodes blocks j) := by
      constructor
      · rintro ⟨j', hj', rfl⟩
        rw [htree.entry_unique hj' hj]
      · rintro rfl
        exact ⟨j, hj, rfl⟩
    rw [hiff]
    rcases hdots with rfl | rfl
    · rw [mem_slotsOf_dot ho, htree.dot hj, htree.tagOf_eq hp, if_pos hk]
    · obtain ⟨hparent, hdir⟩ := htree.reached_dropLast hp hj
      rw [mem_slotsOf_dotdot ho, htree.tagOf_eq hparent, if_pos hdir]
  · rw [mem_slotsOf ho hdots]
    constructor
    · rintro ⟨m, hm, hpath, hlive, rfl⟩
      obtain ⟨q, j, hq, -, rfl⟩ := (mem_dumpNames htree).mp ((hrest m).mp ⟨hm, hlive⟩)
      obtain rfl : q = p ++ [n] := hpath
      obtain ⟨i, hi, he, -⟩ := hq.parent
      obtain rfl := htree.resolves_unique hp.2 hi.2
      exact ⟨j, he, by rw [htree.tag_dumpName_eq hq]⟩
    · rintro ⟨j, hj, rfl⟩
      have hq := hp.child hj hdots
      obtain ⟨hm, hlive⟩ := (hrest _).mpr ((mem_dumpNames htree).mpr ⟨_, j, hq, by simp, rfl⟩)
      exact ⟨_, hm, rfl, hlive, by rw [htree.tag_dumpName_eq hq]⟩

theorem sameTree_of_planted (hdotted : Dotted inodes blocks) (ho : Orderly made gone)
    (h : Planted place (dumpLook inodes blocks host work name) made gone fs) :
    SameTree inodes blocks fs fun k ↦ place (tagOf inodes blocks k) := by
  have hmem : ∀ {p k}, Reached inodes blocks p k → tagOf inodes blocks k ∈ tags made gone := fun hp ↦
    (mem_tags_remaining htree hrest).mpr ⟨_, _, hp, rfl⟩
  refine ⟨?_, fun hp hq heq ↦ htree.tagOf_injective hp hq (h.inj (hmem hp) (hmem hq) heq), fun hi ↦ ?_,
    fun {p k} hp hk ↦ ?_, fun {p k d} hp hd hk ↦ ?_⟩
  · have hroot : Reached inodes blocks [] 2 := ⟨nofun, rfl⟩
    rw [htree.tagOf_eq hroot, if_pos htree.root, h.root]
  · obtain ⟨t, ht, rfl⟩ := h.only hi
    obtain ⟨p, k, hp, rfl⟩ := (mem_tags_remaining htree hrest).mp ht
    exact ⟨p, k, hp, rfl⟩
  · have htag := hmem hp
    rw [htree.tagOf_eq hp, if_pos hk] at htag
    refine ⟨slotsOf place made gone p, by rw [htree.tagOf_eq hp, if_pos hk, h.dir htag], ?_⟩
    have hnames : ((direntsOf inodes blocks k).map fun e ↦ (e.2, place (tagOf inodes blocks e.1))).Nodup :=
      List.Nodup.of_map Prod.fst (by rw [List.map_map]; exact htree.distinct k)
    refine (List.perm_ext_iff_of_nodup (List.Nodup.of_map _ (distinct_slotsOf ho p)) hnames).mpr ?_
    rintro ⟨n, i⟩
    rw [List.reduceOption_mem_iff, mem_slotsOf_remaining htree hrest ho hdotted hp hk, List.mem_map]
    constructor
    · rintro ⟨j, hj, rfl⟩
      exact ⟨(j, n), hj, rfl⟩
    · rintro ⟨⟨j, m⟩, hj, heq⟩
      obtain ⟨rfl, rfl⟩ := Prod.mk.inj heq
      exact ⟨j, hj, rfl⟩
  · have htag := hmem hp
    rw [htree.tagOf_eq hp, if_neg hk] at htag
    rw [htree.tagOf_eq hp, if_neg hk, h.obj htag, Option.map_some, dumpLook, hd]
    rfl

end Planted

section Sizes

variable {work name : Plain} {place : Tag Key → ℕ} {gone : List (List Text)}

theorem length_filter_dot (hdotted : Dotted inodes blocks) (hp : Reached inodes blocks p k) (hk : isDir inodes k) :
    ((direntsOf inodes blocks k).filter fun e ↦ isDot e.2).length = 2 := by
  have hperm : (((direntsOf inodes blocks k).filter fun e ↦ isDot e.2).map Prod.snd).Perm [['.'], ['.', '.']] := by
    refine (List.perm_ext_iff_of_nodup ((htree.distinct k).sublist (List.filter_sublist.map _)) (by decide)).mpr ?_
    intro n
    rw [List.mem_map, show n ∈ [['.'], ['.', '.']] ↔ isDot n by simp [isDot]]
    constructor
    · rintro ⟨e, he, rfl⟩
      simpa using (List.mem_filter.mp he).2
    · intro hn
      obtain ⟨j, hj⟩ := hdotted p k n hp hk hn
      exact ⟨(j, n), List.mem_filter.mpr ⟨hj, by simpa using hn⟩, rfl⟩
  rw [← List.length_map Prod.snd, hperm.length_eq]
  rfl

/-- The names that a directory has in the dump, but for its two entries. -/
theorem length_filter_dumpNames (hnodup : ((dumpNames inodes blocks work name).map Made.path).Nodup)
    (hp : Reached inodes blocks p k) : ((dumpNames inodes blocks work name).filter (·.path.dropLast = p)).length =
      ((direntsOf inodes blocks k).filter fun e ↦ ¬ isDot e.2).length := by
  have hperm : (((dumpNames inodes blocks work name).filter (·.path.dropLast = p)).map Made.path).Perm
      (((direntsOf inodes blocks k).filter fun e ↦ ¬ isDot e.2).map fun e ↦ p ++ [e.2]) := by
    have hnames : (((direntsOf inodes blocks k).filter fun e ↦ ¬ isDot e.2).map fun e ↦ p ++ [e.2]).Nodup := by
      have hsnd := (htree.distinct k).sublist ((List.filter_sublist (p := fun e ↦ ¬ isDot e.2)).map Prod.snd)
      have hinj : Function.Injective fun n : Text ↦ p ++ [n] := fun a b hab ↦
        List.singleton_inj.mp (List.append_cancel_left hab)
      simpa [Function.comp_def] using hsnd.map hinj
    refine (List.perm_ext_iff_of_nodup (hnodup.sublist (List.filter_sublist.map _)) hnames).mpr fun r ↦ ?_
    simp only [List.mem_map, List.mem_filter, decide_eq_true_eq]
    constructor
    · rintro ⟨m, ⟨hm, hdrop⟩, rfl⟩
      obtain ⟨r, j, hr, hne, rfl⟩ := (mem_dumpNames htree).mp hm
      obtain ⟨q, n, rfl⟩ := (List.eq_nil_or_concat r).resolve_left hne
      rw [List.concat_eq_append] at *
      obtain ⟨i, hi, he, hn⟩ := hr.parent
      obtain rfl : q = p := by simpa [dumpName] using hdrop
      obtain rfl := htree.resolves_unique hp.2 hi.2
      exact ⟨(j, n), ⟨he, hn⟩, rfl⟩
    · rintro ⟨⟨j, n⟩, ⟨he, hn⟩, rfl⟩
      exact ⟨dumpName inodes blocks (p ++ [n]), ⟨(mem_dumpNames htree).mpr ⟨_, j, hp.child he hn, by simp, rfl⟩,
        List.dropLast_concat⟩, rfl⟩
  rw [← List.length_map Made.path, hperm.length_eq, List.length_map]

theorem length_filter_temporary (hsized : Sized inodes) (hp : Reached inodes blocks p k) (hd : inodes.get? k = some d)
    (hdir : d.kind = Dump.ifdir) :
    (((dumpSections work name inodes blocks).temporary.map temporaryMade).filter (·.path.dropLast = p)).length =
      d.size / 16 - liveSlots blocks k d := by
  have hpath : ∀ q n, Padded inodes blocks q n → (temporaryMade (absolute (q ++ [n]))).path = q ++ [n] := fun q n hn ↦
    hn.components_absolute htree hsized
  have hnodup : (((dumpSections work name inodes blocks).temporary.map temporaryMade).map Made.path).Nodup := by
    rw [List.map_map]
    refine (nodup_temporary htree hsized).map_on fun x hx y hy hxy ↦ ?_
    obtain ⟨q, n, hn, rfl⟩ := (mem_temporary htree).mp hx
    obtain ⟨r, l, hl, rfl⟩ := (mem_temporary htree).mp hy
    rw [Function.comp_apply, Function.comp_apply, hpath q n hn, hpath r l hl] at hxy
    rw [hxy]
  have hnames : ((List.range (d.size / 16 - liveSlots blocks k d)).map fun j ↦ p ++ [temporaryName j]).Nodup :=
    List.nodup_range.map fun a b hab ↦
      temporaryName_injective (List.singleton_inj.mp (List.append_cancel_left hab))
  have hperm : ((((dumpSections work name inodes blocks).temporary.map temporaryMade).filter
      (·.path.dropLast = p)).map Made.path).Perm
        ((List.range (d.size / 16 - liveSlots blocks k d)).map fun j ↦ p ++ [temporaryName j]) := by
    refine (List.perm_ext_iff_of_nodup (hnodup.sublist (List.filter_sublist.map _)) hnames).mpr fun r ↦ ?_
    simp only [List.mem_map, List.mem_filter, decide_eq_true_eq, List.mem_range]
    constructor
    · rintro ⟨m, ⟨⟨x, hx, rfl⟩, hdrop⟩, rfl⟩
      obtain ⟨q, n, hn, rfl⟩ := (mem_temporary htree).mp hx
      have hself := hpath q n hn
      obtain ⟨i, d', number, hq, hd', -, hnumber, rfl⟩ := hn
      rw [hself, List.dropLast_concat] at hdrop
      subst hdrop
      obtain rfl := htree.resolves_unique hp.2 hq.2
      obtain rfl := Option.some.inj (hd.symm.trans hd')
      exact ⟨number, hnumber, hself.symm⟩
    · rintro ⟨number, hnumber, rfl⟩
      have hn : Padded inodes blocks p (temporaryName number) := ⟨k, d, number, hp, hd, hdir, hnumber, rfl⟩
      refine ⟨_, ⟨⟨_, (mem_temporary htree).mpr ⟨p, _, hn, rfl⟩, rfl⟩, ?_⟩, hpath p _ hn⟩
      rw [hpath p _ hn, List.dropLast_concat]
  rw [← List.length_map Made.path, hperm.length_eq, List.length_map, List.length_range]

/-- With the temporary entries, a directory has the slots of the dump. -/
theorem length_slotsOf_padded (hsized : Sized inodes) (hdotted : Dotted inodes blocks)
    (hnodup : ((dumpNames inodes blocks work name).map Made.path).Nodup) (hp : Reached inodes blocks p k)
    (hd : inodes.get? k = some d) (hdir : d.kind = Dump.ifdir) (hlive : liveSlots blocks k d ≤ d.size / 16) :
    16 * (slotsOf place (dumpNames inodes blocks work name ++
      (dumpSections work name inodes blocks).temporary.map temporaryMade) gone p).length = d.size := by
  have hk : isDir inodes k := (Dump.isDir_of_get? hd).mpr hdir
  have hlength : liveSlots blocks k d = ((direntsOf inodes blocks k).filter fun e ↦ ¬ isDot e.2).length + 2 := by
    rw [liveSlots, ← Dump.direntsOf_eq hd hdir, ← length_filter_dot htree hdotted hp hk]
    have hsplit := List.length_eq_length_filter_add (fun e : ℕ × Text ↦ decide (isDot e.2)) (l := direntsOf inodes blocks k)
    simp only [decide_not]
    omega
  have hslots := Nat.div_mul_cancel (hsized.slots hd hdir)
  rw [slotsOf, List.filter_append, List.length_cons, List.length_cons, List.length_map, List.length_append,
    length_filter_dumpNames htree hnodup hp, length_filter_temporary htree hsized hp hd hdir]
  omega

end Sizes

end Rebuilt

end S8000.Restore
