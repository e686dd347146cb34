import S8000.Filsys.Namei
import S8000.Foundation.Counting

/-! The links of inodes: how many entries of directories name them. -/

namespace S8000.Filsys

open Foundation Foundation.Bytes Foundation.Buffer

section Links

def Object.IsDir (o : Object) : Prop := (o.mode &&& IFMT : ℕ) = IFDIR

instance (o : Object) : Decidable o.IsDir := inferInstanceAs (Decidable (_ = _))

/-- How many entries of a directory name an inode. -/
def Object.names (o : Object) (i : ℕ) : ℕ := if o.IsDir then Nat.count (o.ino · = i) o.slots else 0

def namesOf : Option Object → ℕ → ℕ
  | none, _ => 0
  | some o, i => o.names i

def nlinkOf : Option Object → ℤ
  | none => 0
  | some o => o.nlink

/-- How many entries of all directories name an inode. -/
def links (file : ℕ → Option Object) (i : ℕ) : ℕ := ∑ d ∈ Finset.range 65536, namesOf (file d) i

/-- What holds of every file: the entries of a directory have names of their own, the bytes that no address reaches are
zero, and, where links are exact, a directory without links has no entries. -/
structure Object.Proper (exact : Prop) (o : Object) : Prop where
  unique : o.IsDir → ∀ k l, k < o.slots → l < o.slots → o.ino k ≠ 0 → o.ino l ≠ 0 → o.name k = o.name l → k = l
  beyond : ∀ k, LARGEST ≤ k → o.bytes k = 0
  empty : exact → o.IsDir → o.nlink ≤ 0 → ∀ k < o.slots, o.ino k = 0

/-- Every inode has a link for each entry that names it, and, where links are exact, no others. In the middle of a call an
inode may be owed some. What is open for writing is no directory. -/
structure Linked (exact : Prop) (writers : ℕ → ℕ) (s : Files) (owed : ℕ → ℤ) : Prop where
  small : ∀ i, s.file i ≠ none → 0 < i ∧ i < 65536
  used : ∀ i, 0 < s.iCount i → s.file i ≠ none
  opened : ∀ i, writers i ≤ s.iCount i
  plain : ∀ i o, 0 < writers i → s.file i = some o → ¬ o.IsDir
  proper : ∀ d o, s.file d = some o → o.Proper exact
  le : ∀ i, 0 < i → links s.file i + owed i ≤ nlinkOf (s.file i)
  eq : exact → ∀ i, 0 < i → links s.file i + owed i = nlinkOf (s.file i)

variable {exact : Prop} {writers : ℕ → ℕ} {s : Files} {owed owed' : ℕ → ℤ} {file : ℕ → Option Object}
  {o o' : Object} {d i k : ℕ} {r : Option Object}

theorem links_update (hd : d < 65536) (file : ℕ → Option Object) (r : Option Object) (i : ℕ) :
    links (Function.update file d r) i + namesOf (file d) i = links file i + namesOf r i :=
  sum_update hd (namesOf · i) file r

/-- An inode that an entry names has a link. -/
theorem links_pos (hd : file d = some o) (hsmall : d < 65536) (hdir : o.IsDir) (hk : k < o.slots) :
    0 < links file (o.ino k) := by
  have hle : namesOf (file d) (o.ino k) ≤ links file (o.ino k) := le_sum hsmall fun j ↦ namesOf (file j) (o.ino k)
  have hpos : 0 < Nat.count (o.ino · = o.ino k) o.slots := count_pos hk rfl
  have hnames : namesOf (file d) (o.ino k) = Nat.count (o.ino · = o.ino k) o.slots := by
    rw [hd]
    exact if_pos hdir
  omega

theorem Linked.lt (h : Linked exact writers s owed) (hi : s.file i = some o) : 0 < i ∧ i < 65536 :=
  h.small i (hi ▸ Option.some_ne_none o)

/-- An entry names a file that has a link. -/
theorem Linked.named (h : Linked exact writers s owed) (hd : s.file d = some o) (hdir : o.IsDir) (hk : k < o.slots)
    (hlive : o.ino k ≠ 0) (howed : 0 ≤ owed (o.ino k)) : ∃ o', s.file (o.ino k) = some o' ∧ 0 < o'.nlink := by
  have hpos := links_pos hd (h.lt hd).2 hdir hk
  have hle := h.le (o.ino k) (Nat.pos_of_ne_zero hlive)
  cases hfile : s.file (o.ino k) with
  | none =>
    rw [hfile] at hle
    change _ ≤ (0 : ℤ) at hle
    omega
  | some o' =>
    rw [hfile] at hle
    change _ ≤ o'.nlink at hle
    exact ⟨o', rfl, by omega⟩

/-- A file changes. What its entries gain or lose is owed, and so is what it gains or loses in links. -/
theorem Linked.replace {n : ℕ → ℕ} (h : Linked exact writers s owed) (hd : 0 < d ∧ d < 65536)
    (hproper : ∀ o, r = some o → o.Proper exact) (hused : ∀ i, 0 < n i → Function.update s.file d r i ≠ none)
    (hopen : ∀ i, writers i ≤ n i) (hplain : 0 < writers d → ∀ o, r = some o → ¬ o.IsDir)
    (hle : ∀ i, 0 < i → (namesOf r i : ℤ) + owed' i + nlinkOf (s.file i) ≤
      namesOf (s.file d) i + owed i + nlinkOf (Function.update s.file d r i))
    (heq : exact → ∀ i, 0 < i → (namesOf r i : ℤ) + owed' i + nlinkOf (s.file i) =
      namesOf (s.file d) i + owed i + nlinkOf (Function.update s.file d r i)) :
    Linked exact writers ⟨Function.update s.file d r, n⟩ owed' := by
  refine ⟨fun i hi ↦ ?_, hused, hopen, fun i o hi ho ↦ ?_, fun e o ho ↦ ?_, fun i hi ↦ ?_, fun hexact i hi ↦ ?_⟩
  · by_cases hid : i = d
    · rw [hid]
      exact hd
    · dsimp only at hi
      rw [Function.update_of_ne hid] at hi
      exact h.small i hi
  · dsimp only at ho
    by_cases hid : i = d
    · rw [hid] at hi ho
      rw [Function.update_self] at ho
      exact hplain hi o ho
    · rw [Function.update_of_ne hid] at ho
      exact h.plain i o hi ho
  · dsimp only at ho
    by_cases hed : e = d
    · rw [hed, Function.update_self] at ho
      exact hproper o ho
    · rw [Function.update_of_ne hed] at ho
      exact h.proper e o ho
  · have hlinks := links_update hd.2 s.file r i
    have hold := h.le i hi
    have hnew := hle i hi
    dsimp only
    omega
  · have hlinks := links_update hd.2 s.file r i
    have hold := h.eq hexact i hi
    have hnew := heq hexact i hi
    dsimp only
    omega

theorem nlinkOf_update (hd : s.file d = some o) (hnlink : o'.nlink = o.nlink) (i : ℕ) :
    nlinkOf (Function.update s.file d (some o') i) = nlinkOf (s.file i) := by
  by_cases hid : i = d
  · rw [hid, Function.update_self, hd]
    exact hnlink
  · rw [Function.update_of_ne hid]

/-- The contents of a file change. -/
theorem Linked.refile (h : Linked exact writers s owed) (hd : s.file d = some o) (hnlink : o'.nlink = o.nlink)
    (hproper : o'.Proper exact) (hdir : o'.IsDir → o.IsDir)
    (hle : ∀ i, 0 < i → (o'.names i : ℤ) + owed' i ≤ o.names i + owed i)
    (heq : exact → ∀ i, 0 < i → (o'.names i : ℤ) + owed' i = o.names i + owed i) :
    Linked exact writers ⟨Function.update s.file d (some o'), s.iCount⟩ owed' := by
  have hsame := nlinkOf_update hd hnlink
  have hplain (hw : 0 < writers d) (p : Object) (hp : some o' = some p) : ¬ p.IsDir :=
    Option.some.inj hp ▸ fun hyes ↦ h.plain d o hw hd (hdir hyes)
  refine h.replace (h.lt hd) (fun o ho ↦ Option.some.inj ho ▸ hproper) (fun i hi ↦ ?_) h.opened hplain (fun i hi ↦ ?_)
    fun hexact i hi ↦ ?_
  · by_cases hid : i = d
    · rw [hid, Function.update_self]
      exact Option.some_ne_none o'
    · rw [Function.update_of_ne hid]
      exact h.used i hi
  · rw [hsame, hd]
    have hnew := hle i hi
    change (o'.names i : ℤ) + owed' i + _ ≤ o.names i + owed i + _
    omega
  · rw [hsame, hd]
    have hnew := heq hexact i hi
    change (o'.names i : ℤ) + owed' i + _ = o.names i + owed i + _
    omega

end Links

section Entries

variable {exact : Prop} {o o' : Object} {k j : ℕ} {name : Name} {rest : List Byte} {err : Option Errno}

/-- An entry is written as a whole or not at all. When it is not, there is nothing where it would be. -/
inductive Object.Entered (o : Object) (k : ℕ) (data : List Byte) : Option Errno → Object → Prop
  | done (hinside : DIRECT * k + DIRECT ≤ LARGEST) :
      Entered o k data none
        { o with size := max o.size (DIRECT * k + DIRECT : ℕ), bytes := put o.bytes (DIRECT * k) data }
  | failed {err : Errno} {size : ℤ} (hhole : ∀ i, i / BSIZE = DIRECT * k / BSIZE → o.bytes i = 0)
      (hsize : size = o.size ∨ size = max o.size (DIRECT * k + DIRECT : ℕ)) :
      Entered o k data (some err) { o with size }

theorem ends_zero {m : ℕ} (h : Ends (DIRECT * k) DIRECT m) (hlt : m < DIRECT) : m = 0 := by
  rcases h.aligned hlt with hzero | hmod
  · exact hzero
  · rw [DIRECT] at *
    rw [BSIZE] at hmod
    omega

theorem portion_direct (k : ℕ) : portion (DIRECT * k) DIRECT = DIRECT := by
  rw [portion, DIRECT, BSIZE]
  omega

theorem Object.Write.entered {data : List Byte} (hproper : o.Proper exact) (hlen : data.length = DIRECT)
    (h : o.Write (DIRECT * k) data rest err o') : o.Entered k data err o' := by
  have hne : data ≠ [] := fun hnil ↦ absurd (hnil ▸ hlen) (by decide)
  cases h with
  | done hends =>
    have hinside := hends.inside
    rw [hlen] at hinside ⊢
    rw [if_neg hne]
    exact .done (hinside.resolve_left (by decide))
  | nospace hends hlt hhole =>
    rw [hlen] at hends hlt
    obtain rfl := ends_zero hends hlt
    rw [List.take_zero, put_nil, if_pos rfl]
    exact .failed hhole (.inl rfl)
  | toobig hends hlt hlarge =>
    rw [hlen] at hends hlt ⊢
    obtain rfl := ends_zero hends hlt
    rw [List.take_zero, put_nil, Nat.zero_add, Nat.sub_zero, Nat.add_zero, portion_direct]
    refine .failed (fun i hi ↦ hproper.beyond i ?_) (.inr rfl)
    rw [LARGEST, BSIZE] at *
    omega

theorem slots_of_size (hsize : o'.size = max o.size (DIRECT * k + DIRECT : ℕ)) : o'.slots = max o.slots (k + 1) := by
  rw [Object.slots, Object.slots, hsize, DIRECT]
  omega

theorem Object.ino_of_hole (h : ∀ i, i / BSIZE = DIRECT * k / BSIZE → o.bytes i = 0) : o.ino k = 0 := by
  refine ushort_of_zero (h _ rfl) (h _ ?_)
  rw [DIRECT, BSIZE]
  omega

/-- What an attempt to write an entry does to the entries. -/
structure Object.Edits (o : Object) (k j : ℕ) (name : Name) (err : Option Errno) (o' : Object) : Prop where
  mode : o'.mode = o.mode
  nlink : o'.nlink = o.nlink
  others : ∀ m, m ≠ k → o'.ino m = o.ino m ∧ o'.name m = o.name m
  done : err = none → o'.ino k = j ∧ o'.name k = name ∧ DIRECT * k + DIRECT ≤ LARGEST
  failed : err ≠ none → o'.ino k = 0 ∧ o.ino k = 0
  slots : o'.slots = max o.slots (k + 1) ∨ err ≠ none ∧ o'.slots = o.slots

theorem Object.Entered.edits (hj : j < 65536) (h : o.Entered k (direct j name) err o') : o.Edits k j name err o' := by
  have hlen := length_direct j name
  cases h with
  | done hinside =>
    refine ⟨rfl, rfl, fun m hm ↦ ⟨dIno_put_of_ne hm hlen o.bytes, dName_put_of_ne hm hlen o.bytes⟩,
      fun _ ↦ ⟨dIno_put_direct hj o.bytes _ name, dName_put_direct o.bytes _ j name, hinside⟩, fun herr ↦ absurd rfl herr,
      .inl (slots_of_size rfl)⟩
  | failed hhole hsize =>
    refine ⟨rfl, rfl, fun m _ ↦ ⟨rfl, rfl⟩, fun herr ↦ absurd herr (Option.some_ne_none _),
      fun _ ↦ ⟨o.ino_of_hole hhole, o.ino_of_hole hhole⟩, ?_⟩
    rcases hsize with hsame | hmax
    · refine .inr ⟨Option.some_ne_none _, ?_⟩
      rw [hsame]
    · exact .inl (slots_of_size hmax)

variable {i : ℕ}

theorem Object.Edits.isDir (h : o.Edits k j name err o') : o'.IsDir ↔ o.IsDir := by
  rw [Object.IsDir, Object.IsDir, h.mode]

/-- One entry less, or one more. -/
theorem Object.Edits.names (h : o.Edits k j name err o') (hdir : o.IsDir) (hk : k ≤ o.slots) (hi : 0 < i) :
    o'.names i + (if err = none ∧ k < o.slots ∧ o.ino k = i then 1 else 0) =
      o.names i + if err = none ∧ j = i then 1 else 0 := by
  have hcount := count_update hk (fun m hm ↦ (h.others m hm).1) i
  rw [Object.names, Object.names, if_pos hdir, if_pos (h.isDir.mpr hdir)]
  by_cases herr : err = none
  · obtain ⟨hino, -⟩ := h.done herr
    rw [hino] at hcount
    rw [h.slots.resolve_right fun hor ↦ hor.1 herr]
    simp only [herr, true_and]
    exact hcount
  · obtain ⟨hino, hino'⟩ := h.failed herr
    have hne : ¬ (0 : ℕ) = i := hi.ne
    simp only [herr, false_and, if_false, Nat.add_zero]
    rw [hino, hino', if_neg hne, if_neg fun hand ↦ hne hand.2, Nat.add_zero, Nat.add_zero] at hcount
    rcases h.slots with hslots | ⟨-, hslots⟩
    · rw [hslots]
      exact hcount
    · rw [hslots]
      refine count_congr (fun m _ ↦ ?_) i
      by_cases hm : m = k
      · rw [hm, hino, hino']
      · exact (h.others m hm).1

/-- The entries of `o'`. -/
theorem Object.Edits.live (h : o.Edits k j name err o') (hk : k ≤ o.slots) {m : ℕ} (hm : m < o'.slots)
    (hlive : o'.ino m ≠ 0) :
    m = k ∧ err = none ∧ o'.ino m = j ∧ o'.name m = name ∨
      m ≠ k ∧ m < o.slots ∧ o.ino m ≠ 0 ∧ o'.ino m = o.ino m ∧ o'.name m = o.name m := by
  by_cases hmk : m = k
  · rw [hmk] at hlive ⊢
    by_cases herr : err = none
    · obtain ⟨hino, hname, -⟩ := h.done herr
      exact .inl ⟨rfl, herr, hino, hname⟩
    · exact absurd (h.failed herr).1 hlive
  · obtain ⟨hino, hname⟩ := h.others m hmk
    refine .inr ⟨hmk, ?_, hino ▸ hlive, hino, hname⟩
    rcases h.slots with hslots | ⟨-, hslots⟩ <;> omega

/-- A directory stays proper when no other entry has the name of a new one. -/
theorem Object.Edits.proper (h : o.Edits k j name err o') (hproper : o.Proper exact) (hdir : o.IsDir)
    (hk : k ≤ o.slots) (hbeyond : ∀ i, LARGEST ≤ i → o'.bytes i = 0)
    (hfresh : j ≠ 0 → 0 < o.nlink ∧ ∀ m < o.slots, o.ino m ≠ 0 → o.name m ≠ name) : o'.Proper exact := by
  refine ⟨fun _ m l hm hl hm' hl' heq ↦ ?_, hbeyond, fun hexact _ hnlink m hm ↦ ?_⟩
  · obtain ⟨rfl, -, hino, hname⟩ | ⟨hmk, hlt, hlive, -, hname⟩ := h.live hk hm hm' <;>
      obtain ⟨rfl, -, hino', hname'⟩ | ⟨hlk, hlt', hlive', -, hname'⟩ := h.live hk hl hl'
    · rfl
    · refine absurd ?_ ((hfresh (hino ▸ hm')).2 l hlt' hlive')
      rw [← hname', ← heq, hname]
    · refine absurd ?_ ((hfresh (hino' ▸ hl')).2 m hlt hlive)
      rw [← hname, heq, hname']
    · exact hproper.unique hdir m l hlt hlt' hlive hlive' (hname.symm.trans (heq.trans hname'))
  · refine of_not_not fun hlive ↦ ?_
    rw [h.nlink] at hnlink
    obtain ⟨-, -, hino, -⟩ | ⟨-, hlt, hlive', -⟩ := h.live hk hm hlive
    · exact absurd (hfresh (hino ▸ hlive)).1 (not_lt.mpr hnlink)
    · exact hlive' (hproper.empty hexact hdir hnlink m hlt)

theorem Object.Entered.beyond {data : List Byte} (h : o.Entered k data err o') (hlen : data.length = DIRECT)
    (hproper : o.Proper exact) (i : ℕ) (hi : LARGEST ≤ i) : o'.bytes i = 0 := by
  cases h with
  | done hinside =>
    have happart : DIRECT * k + data.length ≤ i := by omega
    exact (put_apply_of_apart (.inr happart)).trans (hproper.beyond i hi)
  | failed hhole hsize => exact hproper.beyond i hi

end Entries

section Commands

variable {exact : Prop} {writers : ℕ → ℕ} {s t : Files} {owed : ℕ → ℤ} {o o' : Object} {i j d k : ℕ}

/-- One more use of the inode can come to an end without consequences. -/
def Files.Keeps (s : Files) (i : ℕ) : Prop := 0 < s.iCount i ∨ ∃ o, s.file i = some o ∧ 0 < o.nlink

theorem less_more (n : ℕ → ℕ) (i : ℕ) : less (more n i) i = n := by
  rw [less, more, Function.update_idem, Function.update_self, Nat.add_sub_cancel, Function.update_eq_self]

theorem less_more_of_ne {n : ℕ → ℕ} (h : i ≠ d) : less (more (more n d) i) d = more n i := by
  funext j
  unfold less more
  by_cases hjd : j = d
  · rw [hjd, Function.update_self, Function.update_of_ne h.symm, Function.update_self, Function.update_of_ne h.symm,
      Nat.add_sub_cancel]
  · rw [Function.update_of_ne hjd]
    by_cases hji : j = i
    · rw [hji, Function.update_self, Function.update_self, Function.update_of_ne h]
    · rw [Function.update_of_ne hji, Function.update_of_ne hjd, Function.update_of_ne hji]

theorem le_more (n : ℕ → ℕ) (i j : ℕ) : n j ≤ more n i j := by
  unfold more
  by_cases hji : j = i
  · rw [hji, Function.update_self]
    exact Nat.le_succ _
  · rw [Function.update_of_ne hji]

theorem more_self (n : ℕ → ℕ) (i : ℕ) : more n i i = n i + 1 := Function.update_self ..

theorem Files.Keeps.iput (h : s.Keeps i) (hsees : Sees ⟨s.file, more s.iCount i⟩ (.iput i) () t) : t = s := by
  cases hsees with
  | iput hcount => exact congrArg (Files.mk s.file) (less_more s.iCount i)
  | last hcount hi hnlink => exact congrArg (Files.mk s.file) (less_more s.iCount i)
  | free hcount hi hnlink =>
    dsimp only at hcount hi
    rw [more_self] at hcount
    rcases h with hpos | ⟨o, ho, hpos⟩
    · omega
    · rw [ho] at hi
      obtain rfl := Option.some.inj hi
      omega
  | act he hspec => cases he

theorem lt_more {m n w : ℕ → ℕ} (hcount : m = more n i) (h : w i ≤ n i) : w i < m i := by
  rw [hcount, more_self]
  exact Nat.lt_succ_of_le h

theorem le_less {n w : ℕ → ℕ} (h : ∀ j, w j ≤ n j) (hi : w i < n i) (j : ℕ) : w j ≤ less n i j := by
  unfold less
  by_cases hji : j = i
  · rw [hji, Function.update_self]
    omega
  · rw [Function.update_of_ne hji]
    exact h j

theorem pos_of_less {n : ℕ → ℕ} (h : 0 < less n i j) : 0 < n j := by
  by_cases hji : j = i
  · rw [less, hji, Function.update_self] at h
    rw [hji]
    omega
  · rwa [less, Function.update_of_ne hji] at h

theorem slots_of_empty (h : o.size = 0) : o.slots = 0 := by
  rw [Object.slots, h]
  decide

theorem names_of_empty (h : ∀ k < o.slots, o.ino k = 0) (hi : 0 < i) : o.names i = 0 := by
  unfold Object.names
  split
  · exact count_eq_zero fun k hk heq ↦ hi.ne ((h k hk).symm.trans heq)
  · rfl

/-- An inode goes when it is last used and has no links. -/
theorem Linked.iput (h : Linked exact writers s owed) (howed : owed i = 0) (hopen : writers i < s.iCount i)
    (hsees : Sees s (.iput i) () t) : Linked exact writers t owed ∧ t.iCount = less s.iCount i ∧
      (t.file = s.file ∨ t.file = Function.update s.file i none) := by
  have hopen' := le_less h.opened hopen
  cases hsees with
  | iput hcount =>
    exact ⟨⟨h.small, fun j hj ↦ h.used j (pos_of_less hj), hopen', h.plain, h.proper, h.le, h.eq⟩, rfl, .inl rfl⟩
  | last hcount hi hnlink =>
    exact ⟨⟨h.small, fun j hj ↦ h.used j (pos_of_less hj), hopen', h.plain, h.proper, h.le, h.eq⟩, rfl, .inl rfl⟩
  | @free i o hcount hi hnlink =>
    have hupdate (j : ℕ) : nlinkOf (Function.update s.file i none j) = if j = i then 0 else nlinkOf (s.file j) := by
      by_cases hji : j = i
      · rw [hji, Function.update_self, if_pos rfl]
        rfl
      · rw [Function.update_of_ne hji, if_neg hji]
    have hnlinkOf : nlinkOf (s.file i) = o.nlink := congrArg nlinkOf hi
    have hnames (j : ℕ) : namesOf (s.file i) j = o.names j := congrArg (namesOf · j) hi
    refine ⟨h.replace (h.lt hi) (fun o ho ↦ absurd ho.symm (Option.some_ne_none o)) (fun j hj ↦ ?_) hopen'
      (fun _ o ho ↦ absurd ho.symm (Option.some_ne_none o)) (fun j hj ↦ ?_) fun hexact j hj ↦ ?_, rfl, .inr rfl⟩
    · by_cases hji : j = i
      · rw [less, hji, Function.update_self, hcount] at hj
        exact absurd hj (Nat.not_lt_zero 0)
      · rw [Function.update_of_ne hji]
        exact h.used j (pos_of_less hj)
    · rw [hupdate, hnames]
      change ((0 : ℕ) : ℤ) + _ + _ ≤ _
      split
      · rename_i hji
        rw [hji, hnlinkOf]
        omega
      · omega
    · have hexactly := h.eq hexact i (h.lt hi).1
      have hempty : o.names j = 0 := by
        by_cases hdir : o.IsDir
        · exact names_of_empty ((h.proper i o hi).empty hexact hdir hnlink) hj
        · exact if_neg hdir
      rw [hnlinkOf, howed] at hexactly
      rw [hupdate, hnames, hempty]
      change ((0 : ℕ) : ℤ) + _ + _ = _
      split
      · rename_i hji
        rw [hji, hnlinkOf]
        omega
      · omega
  | act he hspec => cases he

def owe (owed : ℕ → ℤ) (i : ℕ) (n : ℤ) : ℕ → ℤ := Function.update owed i (owed i + n)

theorem owe_apply (owed : ℕ → ℤ) (i : ℕ) (n : ℤ) (j : ℕ) : owe owed i n j = owed j + if j = i then n else 0 := by
  by_cases hji : j = i
  · rw [hji, if_pos rfl]
    exact Function.update_self ..
  · rw [if_neg hji, add_zero]
    exact Function.update_of_ne hji ..

theorem owe_owe (owed : ℕ → ℤ) (i : ℕ) (n m : ℤ) : owe (owe owed i n) i m = owe owed i (n + m) := by
  funext j
  rw [owe_apply, owe_apply, owe_apply]
  split_ifs <;> omega

theorem owe_zero (owed : ℕ → ℤ) (i : ℕ) : owe owed i 0 = owed := by
  funext j
  rw [owe_apply, ite_self, add_zero]

/-- A new entry for an inode stands for a link that it is owed. -/
theorem owe_gained {err : Option Errno} {dead : Prop} [Decidable dead] (hdead : ¬ dead) (owed : ℕ → ℤ) (ip i : ℕ) :
    owe owed ip (if err = none then -1 else 0) i =
      owed i + (if dead then 1 else 0) - if err = none ∧ ip = i then 1 else 0 := by
  rw [owe_apply, if_neg hdead]
  by_cases hii : i = ip
  · rw [hii, if_pos rfl]
    by_cases herr : err = none
    · rw [if_pos herr, if_pos ⟨herr, rfl⟩]
      omega
    · rw [if_neg herr, if_neg fun hand ↦ herr hand.1]
      omega
  · rw [if_neg hii, if_neg fun hand ↦ hii hand.2.symm]
    omega

/-- An inode whose entry is deleted has a link too many. -/
theorem owe_lost {err : Option Errno} {live : Prop} [Decidable live] (hlive : live) (hi : 0 < i) (owed : ℕ → ℤ) (j : ℕ) :
    owe owed j (if err = none then 1 else 0) i =
      owed i + (if err = none ∧ live ∧ j = i then 1 else 0) - if err = none ∧ 0 = i then 1 else 0 := by
  have hnew : ¬ (err = none ∧ 0 = i) := fun hand ↦ hi.ne hand.2
  rw [owe_apply, if_neg hnew, sub_zero]
  by_cases hii : i = j
  · rw [hii, if_pos rfl]
    by_cases herr : err = none
    · rw [if_pos herr, if_pos ⟨herr, hlive, rfl⟩]
    · rw [if_neg herr, if_neg fun hand ↦ herr hand.1]
  · rw [if_neg hii, if_neg fun hand ↦ hii hand.2.2.symm]

/-- The attributes of an inode change. -/
theorem Linked.change {attr : Attr} (h : Linked exact writers s owed) (hsees : Sees s (.change i attr) () t) :
    ∃ o, s.file i = some o ∧ attr.mode &&& IFMT = o.mode &&& IFMT ∧
      t = ⟨Function.update s.file i
        (some { o with mode := attr.mode, nlink := attr.nlink, uid := attr.uid, gid := attr.gid }), s.iCount⟩ ∧
      ((exact → o.IsDir → attr.nlink ≤ 0 → ∀ k < o.slots, o.ino k = 0) →
        Linked exact writers t (owe owed i (attr.nlink - o.nlink))) := by
  cases hsees with
  | act he hspec =>
    cases he with
    | change =>
      cases hspec with
      | @change _ _ _ _ _ o hi hkind =>
        refine ⟨o, hi, hkind, rfl, fun hempty ↦ ?_⟩
        obtain ⟨o', ho'⟩ : ∃ o' : Object, o' =
            { o with mode := attr.mode, nlink := attr.nlink, uid := attr.uid, gid := attr.gid } := ⟨_, rfl⟩
        have hdir : o'.IsDir ↔ o.IsDir := by
          rw [Object.IsDir, Object.IsDir, ho', ← hkind]
        have hslots : o'.slots = o.slots := by rw [ho', Object.slots, Object.slots]
        have hino (k : ℕ) : o'.ino k = o.ino k := by rw [ho', Object.ino, Object.ino]
        have hnames (j : ℕ) : o'.names j = o.names j := by
          unfold Object.names
          rw [hslots]
          simp only [hino, hdir]
        have hnlink : o'.nlink = attr.nlink := by rw [ho']
        have hproper := h.proper i o hi
        have hproper' : o'.Proper exact := by
          refine ⟨fun hd k l hk hl hk' hl' heq ↦ ?_, fun k hk ↦ ?_, fun hexact hd hno k hk ↦ ?_⟩
          · rw [hslots] at hk hl
            rw [hino] at hk' hl'
            rw [ho'] at heq
            exact hproper.unique (hdir.mp hd) k l hk hl hk' hl' heq
          · rw [ho']
            exact hproper.beyond k hk
          · rw [hslots] at hk
            rw [hino]
            exact hempty hexact (hdir.mp hd) (hnlink ▸ hno) k hk
        have hbalance (j : ℕ) : (o'.names j : ℤ) + owe owed i (attr.nlink - o.nlink) j + nlinkOf (s.file j) =
            o.names j + owed j + nlinkOf (Function.update s.file i (some o') j) := by
          rw [owe_apply, hnames]
          by_cases hji : j = i
          · rw [hji, if_pos rfl, Function.update_self, hi]
            change _ + o.nlink = _ + o'.nlink
            omega
          · rw [if_neg hji, Function.update_of_ne hji]
            omega
        rw [← ho']
        have hplain (hw : 0 < writers i) (p : Object) (hp : some o' = some p) : ¬ p.IsDir :=
          Option.some.inj hp ▸ fun hyes ↦ h.plain i o hw hi (hdir.mp hyes)
        refine h.replace (h.lt hi) (fun o ho ↦ Option.some.inj ho ▸ hproper') (fun j hj ↦ ?_) h.opened hplain (fun j _ ↦ ?_)
          fun _ j _ ↦ ?_
        · by_cases hji : j = i
          · rw [hji, Function.update_self]
            exact Option.some_ne_none o'
          · rw [Function.update_of_ne hji]
            exact h.used j hj
        · rw [hi]
          exact (hbalance j).le
        · rw [hi]
          exact hbalance j

/-- A new file has a link that no entry has. -/
theorem Linked.makeInode {mode : ℕ} {uid gid dev : ℤ} {x : Option ℕ} (h : Linked exact writers s owed)
    (hsees : Sees s (.makeInode mode uid gid dev) x t) :
    x = none ∧ t = s ∨
      ∃ i, x = some i ∧ s.file i = none ∧ (0 < i ∧ i < 65536) ∧
        t = ⟨Function.update s.file i (some ⟨fileMode mode, 1, uid, gid, 0, fun _ ↦ 0, dev⟩), more s.iCount i⟩ ∧
        Linked exact writers t (owe owed i 1) := by
  have hmake {i : ℕ} {file' : ℕ → Option Object} (hspec : Spec s.file (.makeInode (some i) mode uid gid dev) file') :
      s.file i = none ∧ (0 < i ∧ i < 65536) ∧
        file' = Function.update s.file i (some ⟨fileMode mode, 1, uid, gid, 0, fun _ ↦ 0, dev⟩) := by
    cases hspec with
    | makeInode hnone hlt => exact ⟨hnone, hlt, rfl⟩
  cases hsees with
  | @makeInode i _ _ _ _ file' hspec =>
    obtain ⟨hnone, hlt, rfl⟩ := hmake hspec
    refine .inr ⟨i, rfl, hnone, hlt, rfl, ?_⟩
    obtain ⟨o, ho⟩ : ∃ o : Object, o = ⟨fileMode mode, 1, uid, gid, 0, fun _ ↦ 0, dev⟩ := ⟨_, rfl⟩
    have hnlink : o.nlink = 1 := by rw [ho]
    have hslots : o.slots = 0 := slots_of_empty (by rw [ho])
    have hproper : o.Proper exact := by
      refine ⟨fun _ k l hk ↦ absurd (hslots ▸ hk) (Nat.not_lt_zero k), fun k _ ↦ ?_,
        fun _ _ _ k hk ↦ absurd (hslots ▸ hk) (Nat.not_lt_zero k)⟩
      rw [ho]
    have hbalance (j : ℕ) (hj : 0 < j) : (o.names j : ℤ) + owe owed i 1 j + nlinkOf (s.file j) =
        (0 : ℕ) + owed j + nlinkOf (Function.update s.file i (some o) j) := by
      rw [owe_apply, names_of_empty (fun k hk ↦ absurd (hslots ▸ hk) (Nat.not_lt_zero k)) hj]
      by_cases hji : j = i
      · rw [hji, if_pos rfl, Function.update_self, hnone]
        change _ + (0 : ℤ) = _ + o.nlink
        omega
      · rw [if_neg hji, Function.update_of_ne hji]
        omega
    rw [← ho]
    have hunused : s.iCount i = 0 := Nat.eq_zero_of_not_pos fun hpos ↦ h.used i hpos hnone
    have hopen (j : ℕ) : writers j ≤ more s.iCount i j := (h.opened j).trans (le_more s.iCount i j)
    have hplain (hw : 0 < writers i) (p : Object) (_ : some o = some p) : ¬ p.IsDir := by
      have hold := h.opened i
      omega
    refine h.replace hlt (fun o ho ↦ Option.some.inj ho ▸ hproper) (fun j hj ↦ ?_) hopen hplain (fun j hj ↦ ?_)
      fun _ j hj ↦ ?_
    · by_cases hji : j = i
      · rw [hji, Function.update_self]
        exact Option.some_ne_none o
      · rw [more, Function.update_of_ne hji] at hj
        rw [Function.update_of_ne hji]
        exact h.used j hj
    · rw [hnone]
      exact (hbalance j hj).le
    · rw [hnone]
      exact hbalance j hj
  | act he hspec =>
    cases he with
    | full =>
      cases hspec with
      | full => exact .inl ⟨rfl, rfl⟩

/-- An entry is written, at the end of a directory or in the place of another. -/
theorem Linked.enter {name : Name} {rest : List Byte} {err : Option Errno} (h : Linked exact writers s owed)
    (hsees : Sees s (.writei d (DIRECT * k) (direct j name)) (rest, err) t) (hd : s.file d = some o) (hdir : o.IsDir)
    (hk : k ≤ o.slots) (hj : j < 65536) (hfresh : j ≠ 0 → 0 < o.nlink ∧ ∀ m < o.slots, o.ino m ≠ 0 → o.name m ≠ name)
    {owed' : ℕ → ℤ} (howed : ∀ i, 0 < i → owed' i = owed i +
      (if err = none ∧ k < o.slots ∧ o.ino k = i then 1 else 0) - if err = none ∧ j = i then 1 else 0) :
    ∃ o', o.Edits k j name err o' ∧ t = ⟨Function.update s.file d (some o'), s.iCount⟩ ∧ Linked exact writers t owed' := by
  cases hsees with
  | act he hspec =>
    cases he with
    | writei =>
      cases hspec with
      | @writei _ _ _ _ _ _ o' hd' hwrite =>
        rw [hd] at hd'
        obtain rfl := Option.some.inj hd'
        have hproper := h.proper d o hd
        have hentered := hwrite.entered hproper (length_direct j name)
        have hedits := hentered.edits hj
        have hproper' := hedits.proper hproper hdir hk (hentered.beyond (length_direct j name) hproper) hfresh
        have hbalance (i : ℕ) (hi : 0 < i) : (o'.names i : ℤ) + owed' i = o.names i + owed i := by
          have hnames := hedits.names hdir hk hi
          rw [howed i hi]
          split_ifs at hnames ⊢ <;> omega
        have hle (i : ℕ) (hi : 0 < i) := (hbalance i hi).le
        exact ⟨o', hedits, rfl, h.refile hd hedits.nlink hproper' hedits.isDir.mp hle fun _ ↦ hbalance⟩

/-- Writing to a file that is no directory, and truncating one. -/
theorem Linked.contents (h : Linked exact writers s owed) (hd : s.file d = some o) (hmode : o'.mode = o.mode)
    (hnlink : o'.nlink = o.nlink) (hdir : ¬ o.IsDir) (hbeyond : ∀ i, LARGEST ≤ i → o'.bytes i = 0) :
    Linked exact writers ⟨Function.update s.file d (some o'), s.iCount⟩ owed := by
  have hdir' : ¬ o'.IsDir := by
    rw [Object.IsDir, hmode]
    exact hdir
  have hnames (i : ℕ) : o'.names i = o.names i := (if_neg hdir').trans (if_neg hdir).symm
  refine h.refile hd hnlink ⟨fun hyes ↦ absurd hyes hdir', hbeyond, fun _ hyes ↦ absurd hyes hdir'⟩
    (fun hyes ↦ absurd hyes hdir') (fun i _ ↦ ?_) fun _ i _ ↦ ?_
  · rw [hnames]
  · rw [hnames]

end Commands

end S8000.Filsys
