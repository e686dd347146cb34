import S8000.Filsys.Names

/-! What the calls on files do to the links. -/

namespace S8000.Filsys

open Foundation Foundation.Bytes Foundation.Buffer

section Contents

variable {exact : Prop} {writers : ℕ → ℕ} {s t : Files} {owed : ℕ → ℤ} {o o' : Object} {i off : ℕ} {data rest : List Byte}
  {err : Option Errno}

/-- A write leaves the kind of a file, its links and what no address reaches. -/
theorem Object.Write.same (h : o.Write off data rest err o') (hbeyond : ∀ k, LARGEST ≤ k → o.bytes k = 0) :
    o'.mode = o.mode ∧ o'.nlink = o.nlink ∧ ∀ k, LARGEST ≤ k → o'.bytes k = 0 := by
  have hput {m : ℕ} (hends : Ends off data.length m) (k : ℕ) (hk : LARGEST ≤ k) : put o.bytes off (data.take m) k = 0 := by
    rcases hends.inside with rfl | hinside
    · rw [List.take_zero, put_nil]
      exact hbeyond k hk
    · have hlen : (data.take m).length ≤ m := List.length_take_le ..
      exact (put_apply_of_apart (.inr (by omega))).trans (hbeyond k hk)
  cases h with
  | done hends =>
    have hall := hput hends
    rw [List.take_length] at hall
    exact ⟨rfl, rfl, hall⟩
  | nospace hends hlt hhole => exact ⟨rfl, rfl, hput hends⟩
  | toobig hends hlt hlarge => exact ⟨rfl, rfl, hput hends⟩

/-- A file without contents. -/
theorem Linked.erase (h : Linked exact writers s owed) (hi : s.file i = some o) (hplain : exact → ¬ o.IsDir) :
    Linked exact writers ⟨Function.update s.file i (some { o with size := 0, bytes := fun _ ↦ 0 }), s.iCount⟩ owed := by
  obtain ⟨o', ho'⟩ : ∃ o' : Object, o' = { o with size := 0, bytes := fun _ ↦ 0 } := ⟨_, rfl⟩
  have hslots : o'.slots = 0 := slots_of_empty (by rw [ho'])
  have hdir : o'.IsDir → o.IsDir := by
    rw [ho']
    exact id
  have hnone (k : ℕ) : ¬ k < o'.slots := by
    rw [hslots]
    exact Nat.not_lt_zero k
  have hnames (j : ℕ) (hj : 0 < j) : o'.names j = 0 := names_of_empty (fun k hk ↦ absurd hk (hnone k)) hj
  have hproper : o'.Proper exact := by
    refine ⟨fun _ k l hk ↦ absurd hk (hnone k), fun k _ ↦ ?_, fun _ _ _ k hk ↦ absurd hk (hnone k)⟩
    rw [ho']
  rw [← ho']
  refine h.refile hi (by rw [ho']) hproper hdir (fun j hj ↦ ?_) fun hexact j hj ↦ ?_
  · rw [hnames j hj]
    omega
  · have hold : o.names j = 0 := if_neg (hplain hexact)
    rw [hnames j hj, hold]

theorem Linked.ensures_itrunc (h : Linked exact writers s owed) :
    Ensures (Answers exact) s (Sys.itrunc i) fun _ t ↦ Linked exact writers t owed ∧ t.iCount = s.iCount ∧
      ∀ o o', s.file i = some o → t.file i = some o' → o'.mode = o.mode := by
  have hsame (o o' : Object) (ho : s.file i = some o) (ho' : s.file i = some o') : o'.mode = o.mode := by
    rw [ho] at ho'
    rw [Option.some.inj ho']
  refine ensures_inode fun o hi ↦ ?_
  split
  · refine ensures_cmd fun x t hsees ↦ ?_
    cases hsees.sees with
    | act he hspec =>
      cases he with
      | itrunc =>
        cases hspec with
        | @itrunc _ o' hi' =>
          refine ⟨h.erase hi' fun hexact ↦ hsees.spares hexact o' hi', rfl, fun p p' hp hp' ↦ ?_⟩
          rw [hi'] at hp
          dsimp only at hp'
          rw [Function.update_self] at hp'
          rw [← Option.some.inj hp, ← Option.some.inj hp']
  · exact ensures_pure ⟨h, rfl, hsame⟩

theorem ensures_readi {count : ℕ} : Ensures (Answers exact) s (Sys.readi i off count) fun x t ↦ t = s ∧
    ∃ o, s.file i = some o ∧ x = (o.read off (min (o.rest off count) (LARGEST - off)),
      if o.rest off count ≤ LARGEST - off then none else some .EFBIG) := by
  refine ensures_cmd fun x t hsees ↦ ?_
  cases hsees.sees with
  | act he hspec =>
    cases he with
    | readi =>
      cases hspec with
      | readi hi => exact ⟨rfl, _, hi, rfl⟩

/-- A write to a file that is open for it. -/
theorem Linked.ensures_writei (h : Linked exact writers s owed) (hopen : 0 < writers i) :
    Ensures (Answers exact) s (Sys.writei i off data) fun _ t ↦ Linked exact writers t owed ∧ t.iCount = s.iCount := by
  refine ensures_cmd fun x t hsees ↦ ?_
  cases hsees.sees with
  | act he hspec =>
    cases he with
    | writei =>
      cases hspec with
      | writei hi hwrite =>
        obtain ⟨hmode, hnlink, hbeyond⟩ := hwrite.same (h.proper i _ hi).beyond
        exact ⟨h.contents hi hmode hnlink (h.plain i _ hopen hi) hbeyond, rfl⟩

theorem ensures_update : Ensures (Answers exact) s Sys.update fun _ t ↦ t = s := by
  refine ensures_cmd fun x t hsees ↦ ?_
  cases hsees.sees with
  | act he hspec =>
    cases he with
    | update =>
      cases hspec with
      | update => rfl

end Contents

section Calls

variable {exact : Prop} {writers n : ℕ → ℕ} {s t : Files} {o : Object} {i ip mode : ℕ} {path : List Name} {u : User}
  {how : Sys.Open} {new free opens : Bool}

theorem Linked.more_of_keeps {owed : ℕ → ℤ} (h : Linked exact writers s owed) (hkeeps : s.Keeps i) :
    Linked exact writers ⟨s.file, Filsys.more s.iCount i⟩ owed := by
  have hsome : s.file i ≠ none := by
    rcases hkeeps with hused | ⟨o, ho, -⟩
    · exact h.used i hused
    · rw [ho]
      exact Option.some_ne_none o
  obtain ⟨o, ho⟩ := Option.ne_none_iff_exists'.mp hsome
  exact h.more ho

theorem isDir_fileMode (hmode : mode < 4096) (uid gid dev : ℤ) :
    ¬ (⟨fileMode mode, 1, uid, gid, 0, fun _ ↦ 0, dev⟩ : Object).IsDir := by
  have hplain : mode &&& IFMT = 0 := by
    have hlow : mode = mode % 2 ^ 12 := (Nat.mod_eq_of_lt hmode).symm
    rw [hlow, ← Nat.and_two_pow_sub_one_eq_mod, Nat.and_assoc]
    exact Nat.and_zero mode
  have hkind : (mode ||| 32768) &&& IFMT = 32768 := by
    rw [Nat.and_or_distrib_right, hplain]
    rfl
  rw [Object.IsDir, fileMode, if_pos hplain, hkind]
  decide

/-- An inode that is opened stays in use, and is no directory when it is opened for writing. -/
structure Opens (exact : Prop) (writers n : ℕ → ℕ) (how : Sys.Open) (r : Except UError ℕ) (t : Files) : Prop where
  linked : Linked exact writers t 0
  error : ∀ e, r = .error e → t.iCount = n
  ok : ∀ ip, r = .ok ip → t.iCount = more n ip ∧ (how.write = true → ∀ o, t.file ip = some o → ¬ o.IsDir)

theorem Linked.ensures_refused (h : Linked exact writers t 0) (hopen : ∀ i, writers i ≤ n i)
    (hcount : t.iCount = Filsys.more n ip) (e : UError) :
    Ensures (Answers exact) t (Sys.iput ip >>= fun _ ↦ pure (Except.error e)) (Opens exact writers n how) := by
  refine h.ensures_last hopen hcount fun t' ht ↦ ensures_pure ⟨ht.1, fun _ _ ↦ ht.2, fun i hok ↦ ?_⟩
  cases hok

/-- The end of `open1`. -/
theorem Linked.ensures_opened (h : Linked exact writers t 0) (hopen : ∀ i, writers i ≤ n i)
    (hcount : t.iCount = Filsys.more n ip) (hplain : how.write = true → ∀ o, t.file ip = some o → ¬ o.IsDir) :
    Ensures (Answers exact) t (do
      if ¬ free then do
        Sys.iput ip
        pure (.error .ENFILE)
      else if ¬ opens then do
        Sys.iput ip
        pure (.error .noDevice)
      else pure (.ok ip)) (Opens exact writers n how) := by
  split
  · exact h.ensures_refused hopen hcount .ENFILE
  · split
    · exact h.ensures_refused hopen hcount .noDevice
    · refine ensures_pure ⟨h, fun e herr ↦ ?_, fun i hok ↦ ?_⟩
      · cases herr
      · cases hok
        exact ⟨hcount, hplain⟩

theorem open1_spec (h : Linked exact writers s 0) (hopen : ∀ i, writers i ≤ n i) (hcount : s.iCount = more n ip)
    (hnew : new = true → ∀ o, s.file ip = some o → ¬ o.IsDir) :
    Ensures (Answers exact) s (Sys.open1 u how new free opens ip) (Opens exact writers n how) := by
  refine ensures_inode fun o hi ↦ ?_
  dsimp only
  split
  · exact h.ensures_refused hopen hcount .EISDIR
  · rename_i hdir
    have hplain (hwrite : how.write = true) (p : Object) (hp : s.file ip = some p) : ¬ p.IsDir := by
      rw [hi] at hp
      obtain rfl := Option.some.inj hp
      intro hyes
      by_cases hnew' : new = true
      · exact hnew hnew' o hi hyes
      · exact hdir ⟨hnew', hwrite, (isDir_attr o).mpr hyes⟩
    split
    · exact h.ensures_refused hopen hcount .EACCES
    · split
      · refine h.ensures_itrunc.bind fun _ t ht ↦ ?_
        obtain ⟨hlinked, hcount', hmode⟩ := ht
        refine hlinked.ensures_opened hopen (hcount'.trans hcount) fun hwrite p hp ↦ ?_
        rw [Object.IsDir, hmode o p hi hp]
        exact hplain hwrite o hi
      · exact h.ensures_opened hopen hcount hplain

theorem openFile_spec (h : Linked exact writers s 0) (hroot : 0 < s.iCount ROOTINO) :
    Ensures (Answers exact) s (Sys.openFile u how mode free opens path) (Opens exact writers s.iCount how) := by
  have herror {e : UError} {t : Files} (hlinked : Linked exact writers t 0) (hcount : t.iCount = s.iCount) :
      Opens exact writers s.iCount how (.error e) t :=
    ⟨hlinked, fun _ _ ↦ hcount, fun i hok ↦ (by cases hok)⟩
  refine (namei_spec h (fun _ ↦ le_rfl) hroot).bind fun r t hnamed ↦ ?_
  cases hnamed with
  | @found ip hflag hresolves hkeeps =>
    have hlinked := h.more_of_keeps hkeeps
    dsimp only
    split
    · exact hlinked.ensures_refused h.opened rfl .EEXIST
    · exact open1_spec hlinked h.opened rfl fun hnew ↦ (by cases hnew)
  | create hflag hpath hresolves hkeeps hdp hdir hsearch =>
    refine (maknode_spec (h.more hdp) rfl h.opened hdp hdir hsearch).bind fun r t ht ↦ ?_
    obtain ⟨hlinked, hfailed, hok⟩ := ht
    cases r with
    | ok ip =>
      have hmade := hok ip rfl
      refine open1_spec hlinked h.opened hmade.count fun _ p hp ↦ ?_
      rw [hmade.made] at hp
      rw [← Option.some.inj hp]
      have hlow : mode &&& 4095 &&& (4095 - ISVTX) < 4096 := Nat.lt_of_le_of_lt Nat.and_le_right (by decide)
      exact isDir_fileMode hlow u.uid u.gid 0
    | error e => exact ensures_pure (herror hlinked (hfailed e rfl))
  | delete hflag =>
    split at hflag <;> cases hflag
  | error e => exact ensures_pure (herror h rfl)

theorem truncate_spec {length : ℤ} (h : Linked exact writers s 0) (hroot : 0 < s.iCount ROOTINO) :
    Ensures (Answers exact) s (Sys.truncate u path length) fun _ t ↦ Settled exact writers s.iCount t := by
  refine (namei_spec h (fun _ ↦ le_rfl) hroot).bind fun r t hnamed ↦ ?_
  cases hnamed with
  | @found ip hflag hresolves hkeeps =>
    have hlinked := h.more_of_keeps hkeeps
    dsimp only
    split
    · refine hlinked.ensures_itrunc.bind fun _ t ht ↦ ?_
      obtain ⟨hlinked', hcount, -⟩ := ht
      exact hlinked'.ensures_last h.opened hcount fun t ht ↦ ensures_pure ht
    · exact hkeeps.ensures_iput (ensures_pure ⟨h, rfl⟩)
  | create hflag => cases hflag
  | delete hflag => cases hflag
  | error e => exact ensures_pure ⟨h, rfl⟩

/-- The attributes of an inode in use change, and the use ends. -/
theorem Files.Keeps.ensures_change {attr : Attr} {α : Type} {f : Unit → Sys α} {post : α → Files → Prop} (hkeeps : s.Keeps i)
    (h : Linked exact writers s 0) (hnlink : ∀ o, s.file i = some o → attr.nlink = o.nlink)
    (hpost : ∀ t, Settled exact writers s.iCount t → s.Within t → Ensures (Answers exact) t (f ()) post) :
    Ensures (Answers exact) ⟨s.file, more s.iCount i⟩ (Sys.change i attr >>= fun _ ↦ Sys.iput i >>= f) post := by
  refine ensures_cmd_bind fun x t hsees ↦ ?_
  obtain ⟨o, hi, hkind, rfl, hchanged⟩ := (h.more_of_keeps hkeeps).change hsees.sees
  obtain ⟨o', ho'⟩ : ∃ o' : Object, o' =
      { o with mode := attr.mode, nlink := attr.nlink, uid := attr.uid, gid := attr.gid } := ⟨_, rfl⟩
  have hsame := hnlink o hi
  have howed : owe (0 : ℕ → ℤ) i (attr.nlink - o.nlink) = 0 := by
    rw [hsame, sub_self, owe_zero]
  rw [howed, ← ho'] at hchanged
  rw [← ho']
  have hlinked := (hchanged fun hexact hdir hno ↦ (h.proper i o hi).empty hexact hdir (hsame ▸ hno)).less
    (lt_more rfl (h.opened i))
  dsimp only at hlinked
  rw [less_more] at hlinked
  have hkeeps' : (⟨Function.update s.file i (some o'), s.iCount⟩ : Files).Keeps i := by
    refine hkeeps.imp_right fun hlive ↦ ⟨o', Function.update_self .., ?_⟩
    obtain ⟨p, hp, hpos⟩ := hlive
    obtain rfl := Option.some.inj (hp.symm.trans hi)
    rw [ho']
    exact hsame ▸ hpos
  have hwithin : s.Within ⟨Function.update s.file i (some o'), s.iCount⟩ := by
    refine within_update hi (fun hdir ↦ ⟨?_, fun k hk _ ↦ ?_⟩) rfl
    · rw [Object.IsDir, ho', hkind]
      exact hdir
    · rw [ho']
      exact ⟨hk, rfl, rfl⟩
  exact hkeeps'.ensures_iput (hpost _ ⟨hlinked, rfl⟩ hwithin)

theorem chmod_spec {fmode : ℕ} (h : Linked exact writers s 0) (hroot : 0 < s.iCount ROOTINO) :
    Ensures (Answers exact) s (Sys.chmod u path fmode) fun _ t ↦ Settled exact writers s.iCount t ∧ s.Within t := by
  have hsame : Settled exact writers s.iCount s ∧ s.Within s := ⟨⟨h, rfl⟩, .of_same fun _ _ hd _ ↦ hd⟩
  refine (namei_spec h (fun _ ↦ le_rfl) hroot).bind fun r t hnamed ↦ ?_
  cases hnamed with
  | @found ip hflag hresolves hkeeps =>
    refine ensures_inode fun o ho ↦ ?_
    split
    · refine hkeeps.ensures_change h (fun o' ho' ↦ ?_) fun t ht hwithin ↦ ensures_pure ⟨ht, hwithin⟩
      rw [← Option.some.inj (ho.symm.trans ho')]
      rfl
    · exact hkeeps.ensures_iput (ensures_pure hsame)
  | create hflag => cases hflag
  | delete hflag => cases hflag
  | error e => exact ensures_pure hsame

theorem chown_spec {owner group : Option ℤ} (h : Linked exact writers s 0) (hroot : 0 < s.iCount ROOTINO) :
    Ensures (Answers exact) s (Sys.chown u path owner group) fun _ t ↦ Settled exact writers s.iCount t := by
  refine (namei_spec h (fun _ ↦ le_rfl) hroot).bind fun r t hnamed ↦ ?_
  cases hnamed with
  | @found ip hflag hresolves hkeeps =>
    refine ensures_inode fun o ho ↦ ?_
    split
    · exact hkeeps.ensures_iput (ensures_pure ⟨h, rfl⟩)
    · dsimp only
      split
      · refine hkeeps.ensures_change h (fun o' ho' ↦ ?_) fun t ht _ ↦ ensures_pure ht
        rw [← Option.some.inj (ho.symm.trans ho')]
        rfl
      · exact hkeeps.ensures_iput (ensures_pure ⟨h, rfl⟩)
  | create hflag => cases hflag
  | delete hflag => cases hflag
  | error e => exact ensures_pure ⟨h, rfl⟩

theorem stat_spec (h : Linked exact writers s 0) (hroot : 0 < s.iCount ROOTINO) :
    Ensures (Answers exact) s (Sys.stat u path) fun r t ↦ t = s ∧ ∀ ip attr, r = .ok (ip, attr) →
      Resolves s.file ROOTINO path ip ∧ ∃ o, s.file ip = some o ∧ attr = o.attr := by
  refine (namei_spec h (fun _ ↦ le_rfl) hroot).bind fun r t hnamed ↦ ?_
  cases hnamed with
  | found hflag hresolves hkeeps =>
    refine ensures_inode fun o ho ↦ hkeeps.ensures_iput (ensures_pure ⟨rfl, fun ip attr hok ↦ ?_⟩)
    cases hok
    exact ⟨hresolves, o, ho, rfl⟩
  | create hflag => cases hflag
  | delete hflag => cases hflag
  | error e => exact ensures_pure ⟨rfl, fun ip attr hok ↦ (by cases hok)⟩

end Calls

end S8000.Filsys
