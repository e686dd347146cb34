import S8000.Filsys.Links

/-! What `namei` and the calls that make and delete entries do to the links. -/

namespace S8000.Filsys

open Foundation Foundation.Bytes Foundation.Buffer

section Sparing

/-- A command that neither takes the last link from a directory with entries nor empties a directory. -/
def Cmd.Spares (s : Files) : Cmd → Prop
  | .change i attr => ∀ o, s.file i = some o → o.IsDir → attr.nlink ≤ 0 → ∀ k < o.slots, o.ino k = 0
  | .itrunc i => ∀ o, s.file i = some o → ¬ o.IsDir
  | _ => True

/-- What a command does to the files, where links are to stay exact. -/
structure Answers (exact : Prop) (s : Files) (c : Cmd) (x : c.Ans) (t : Files) : Prop where
  sees : Sees s c x t
  spares : exact → c.Spares s

end Sparing

section Rules

variable {exact : Prop} {writers : ℕ → ℕ} {s t : Files} {owed : ℕ → ℤ} {o : Object} {i d : ℕ} {α : Type}
  {post : α → Files → Prop}

theorem ensures_inode {f : Attr → Sys α} (h : ∀ o, s.file i = some o → Ensures (Answers exact) s (f o.attr) post) :
    Ensures (Answers exact) s (Sys.inode i >>= f) post := by
  refine ensures_cmd_bind fun x t hsees ↦ ?_
  cases hsees.sees with
  | inode hi => exact h _ hi
  | act he _ => cases he

theorem ensures_seloop {f : Looked → Sys α} {name : Name}
    (h : ∀ o r, s.file i = some o → o.Search name r → Ensures (Answers exact) s (f r) post) :
    Ensures (Answers exact) s (Sys.seloop i name >>= f) post := by
  refine ensures_cmd_bind fun x t hsees ↦ ?_
  cases hsees.sees with
  | seloop hi hsearch => exact h _ _ hi hsearch
  | act he _ => cases he

theorem ensures_iget {f : Unit → Sys α}
    (h : ∀ o, s.file i = some o → Ensures (Answers exact) ⟨s.file, more s.iCount i⟩ (f ()) post) :
    Ensures (Answers exact) s (Sys.iget i >>= f) post := by
  refine ensures_cmd_bind fun x t hsees ↦ ?_
  cases hsees.sees with
  | iget hi => exact h _ hi
  | act he _ => cases he

/-- The end of a use that has no consequences. -/
theorem Files.Keeps.ensures_iput {f : Unit → Sys α} (hkeeps : s.Keeps i) (h : Ensures (Answers exact) s (f ()) post) :
    Ensures (Answers exact) ⟨s.file, more s.iCount i⟩ (Sys.iput i >>= f) post := by
  refine ensures_cmd_bind fun x t hsees ↦ ?_
  cases x
  rw [hkeeps.iput hsees.sees]
  exact h

/-- The end of a use of an inode that has links. -/
theorem ensures_iput_of_pos {f : Unit → Sys α} (hi : s.file i = some o) (hnlink : 0 < o.nlink)
    (h : Ensures (Answers exact) ⟨s.file, less s.iCount i⟩ (f ()) post) :
    Ensures (Answers exact) s (Sys.iput i >>= f) post := by
  refine ensures_cmd_bind fun x t hsees ↦ ?_
  cases hsees.sees with
  | iput hcount => exact h
  | last hcount hi' hnlink' => exact h
  | free hcount hi' hnlink' =>
    rw [hi] at hi'
    obtain rfl := Option.some.inj hi'
    exact absurd hnlink (not_lt.mpr hnlink')
  | act he _ => cases he

theorem Linked.ensures_iput {f : Unit → Sys α} (hlinked : Linked exact writers s owed) (howed : owed i = 0)
    (hopen : writers i < s.iCount i)
    (h : ∀ t, Linked exact writers t owed → t.iCount = less s.iCount i →
      (t.file = s.file ∨ t.file = Function.update s.file i none) → Ensures (Answers exact) t (f ()) post) :
    Ensures (Answers exact) s (Sys.iput i >>= f) post := by
  refine ensures_cmd_bind fun x t hsees ↦ ?_
  cases x
  obtain ⟨hlinked', hcount, hfile⟩ := hlinked.iput howed hopen hsees.sees
  exact h t hlinked' hcount hfile

theorem Linked.ensures_addLinks {n : ℤ} (hlinked : Linked exact writers s owed) :
    Ensures (Answers exact) s (Sys.addLinks i n) fun _ t ↦ Linked exact writers t (owe owed i n) ∧ t.iCount = s.iCount ∧
      ∃ o, s.file i = some o ∧ t.file = Function.update s.file i (some { o with nlink := o.nlink + n }) := by
  refine ensures_inode fun o hi ↦ ensures_cmd fun x t hsees ↦ ?_
  cases x
  obtain ⟨o', hi', -, rfl, hlinked'⟩ := hlinked.change hsees.sees
  rw [hi] at hi'
  obtain rfl := Option.some.inj hi'
  have howed : owe owed i (o.attr.nlink + n - o.nlink) = owe owed i n := congrArg (owe owed i) (add_sub_cancel_left ..)
  refine ⟨?_, rfl, o, hi, rfl⟩
  rw [← howed]
  exact hlinked' fun hexact ↦ hsees.spares hexact o hi

theorem Linked.more (hlinked : Linked exact writers s owed) (hi : s.file i = some o) :
    Linked exact writers ⟨s.file, more s.iCount i⟩ owed := by
  refine ⟨hlinked.small, fun j hj ↦ ?_, fun j ↦ (hlinked.opened j).trans (le_more s.iCount i j), hlinked.plain,
    hlinked.proper, hlinked.le, hlinked.eq⟩
  by_cases hji : j = i
  · rw [hji, hi]
    exact Option.some_ne_none o
  · dsimp only at hj
    rw [Filsys.more, Function.update_of_ne hji] at hj
    exact hlinked.used j hj

theorem Linked.less (hlinked : Linked exact writers s owed) (hopen : writers i < s.iCount i) :
    Linked exact writers ⟨s.file, less s.iCount i⟩ owed :=
  ⟨hlinked.small, fun j hj ↦ hlinked.used j (pos_of_less hj), le_less hlinked.opened hopen, hlinked.plain, hlinked.proper,
    hlinked.le, hlinked.eq⟩

theorem isDir_attr (o : Object) : o.attr.isDir = true ↔ o.IsDir := decide_eq_true_iff

end Rules

section Paths

/-- Where a path leads from a directory. -/
inductive Resolves (file : ℕ → Option Object) : ℕ → List Name → ℕ → Prop
  | here (d : ℕ) : Resolves file d [] d
  | step {d k i : ℕ} {o : Object} {path : List Name} (hd : file d = some o) (hdir : o.IsDir) (hk : k < o.slots)
      (hlive : o.ino k ≠ 0) (h : Resolves file (o.ino k) path i) : Resolves file d (o.name k :: path) i

/-- What `namei` gives, and the inode that it leaves in use. -/
inductive Named (s : Files) (flag : Sys.Flag) (d : ℕ) (path : List Name) : Sys.Namei → Files → Prop
  | found {ip : ℕ} (hflag : flag ≠ .delete) (h : Resolves s.file d path ip) (hkeeps : s.Keeps ip) :
      Named s flag d path (.found ip) ⟨s.file, more s.iCount ip⟩
  | create {before : List Name} {dbuf : Name} {dp off : ℕ} {o : Object} (hflag : flag = .create)
      (hpath : path = before ++ [dbuf]) (h : Resolves s.file d before dp) (hkeeps : s.Keeps dp) (hdp : s.file dp = some o)
      (hdir : o.IsDir) (hsearch : o.Search dbuf (.missing off)) :
      Named s flag d path (.create dp off dbuf) ⟨s.file, more s.iCount dp⟩
  | delete {before : List Name} {dbuf : Name} {dp off ino : ℕ} {o : Object} (hflag : flag = .delete)
      (hpath : path = before ++ [dbuf]) (h : Resolves s.file d before dp) (hkeeps : s.Keeps dp) (hdp : s.file dp = some o)
      (hdir : o.IsDir) (hsearch : o.Search dbuf (.found off ino)) :
      Named s flag d path (.delete dp off ino dbuf) ⟨s.file, more s.iCount dp⟩
  | error (e : UError) : Named s flag d path (.error e) s

variable {exact : Prop} {writers : ℕ → ℕ} {s t : Files} {owed : ℕ → ℤ} {o : Object} {flag : Sys.Flag}
  {d i k : ℕ} {path : List Name} {u : User}

/-- One more component in front. -/
theorem Named.step {r : Sys.Namei} (hd : s.file d = some o) (hdir : o.IsDir) (hk : k < o.slots) (hlive : o.ino k ≠ 0)
    (h : Named s flag (o.ino k) path r t) : Named s flag d (o.name k :: path) r t := by
  cases h with
  | found hflag h hkeeps => exact .found hflag (.step hd hdir hk hlive h) hkeeps
  | create hflag hpath h hkeeps hdp hdir' hsearch =>
    exact .create hflag (congrArg (o.name k :: ·) hpath) (.step hd hdir hk hlive h) hkeeps hdp hdir' hsearch
  | delete hflag hpath h hkeeps hdp hdir' hsearch =>
    exact .delete hflag (congrArg (o.name k :: ·) hpath) (.step hd hdir hk hlive h) hkeeps hdp hdir' hsearch
  | error e => exact .error e

theorem out_spec (hkeeps : s.Keeps d) (e : UError) :
    Ensures (Answers exact) ⟨s.file, more s.iCount d⟩ (Sys.out d e) (Named s flag i path) :=
  hkeeps.ensures_iput (ensures_pure (.error e))

/-- The loop of `namei` by induction on the path. -/
theorem cloop_spec (h : Linked exact writers s owed) (howed : ∀ i, 0 ≤ owed i) (hkeeps : s.Keeps d)
    (hflag : flag = .delete → path ≠ []) :
    Ensures (Answers exact) ⟨s.file, more s.iCount d⟩ (Sys.cloop u flag d path) (Named s flag d path) := by
  induction path generalizing d with
  | nil =>
    rw [Sys.cloop]
    exact ensures_pure (.found (fun hdelete ↦ hflag hdelete rfl) (.here d) hkeeps)
  | cons dbuf path ih =>
    rw [Sys.cloop]
    refine ensures_inode fun o hd ↦ ?_
    split
    · exact out_spec hkeeps .EACCES
    · split
      · exact out_spec hkeeps .ENOTDIR
      · rename_i hdir
        rw [not_not, isDir_attr] at hdir
        refine ensures_seloop fun o' r hd' hsearch ↦ ?_
        obtain rfl := Option.some.inj (hd.symm.trans hd')
        cases r with
        | failed => exact out_spec hkeeps .ioError
        | missing off =>
          dsimp only
          split
          · rename_i hlast
            split
            · rw [hlast.2]
              exact ensures_pure (.create hlast.1 rfl (.here d) hkeeps hd hdir hsearch)
            · exact out_spec hkeeps .EACCES
          · exact out_spec hkeeps .ENOENT
        | found off ino =>
          dsimp only
          split
          · rename_i hlast
            split
            · rw [hlast.2]
              exact ensures_pure (.delete hlast.1 rfl (.here d) hkeeps hd hdir hsearch)
            · exact out_spec hkeeps .EACCES
          · rename_i hmore
            cases hsearch with
            | @found k hk hlive hname hfirst =>
              refine hkeeps.ensures_iput (ensures_iget fun o' ho' ↦ ?_)
              have hnamed := h.named hd hdir hk hlive (howed _)
              have hrest (hdelete : flag = .delete) : path ≠ [] := fun hnil ↦ hmore ⟨hdelete, hnil⟩
              rw [← hname]
              exact (ih (.inr hnamed) hrest).mono fun r t hr ↦ .step hd hdir hk hlive hr

/-- `namei` leaves the files as they are, and the inode that it gives in use. -/
theorem namei_spec (h : Linked exact writers s owed) (howed : ∀ i, 0 ≤ owed i) (hroot : 0 < s.iCount ROOTINO) :
    Ensures (Answers exact) s (Sys.namei u flag path) (Named s flag ROOTINO path) := by
  refine ensures_iget fun o ho ↦ ?_
  split
  · exact out_spec (.inl hroot) .ENOENT
  · rename_i hsome
    exact cloop_spec h howed (.inl hroot) fun hdelete hnil ↦ hsome ⟨hnil, fun hseek ↦ by rw [hseek] at hdelete; cases hdelete⟩

end Paths

section Entries

variable {exact : Prop} {writers : ℕ → ℕ} {s t : Files} {owed : ℕ → ℤ} {o : Object} {d i ip pdir off : ℕ} {dbuf : Name}
  {u : User}

/-- A directory with one more entry, which stands where none was. -/
def Object.Gains (o : Object) (dbuf : Name) (ip : ℕ) (r : Option Object) : Prop :=
  ∃ o' k, r = some o' ∧ o.Edits k ip dbuf none o' ∧ k ≤ o.slots ∧ (k < o.slots → o.ino k = 0)

/-- `wdir` makes an entry for an inode, or none. -/
theorem wdir_spec (h : Linked exact writers s owed) (hpdir : s.file pdir = some o) (hdir : o.IsDir)
    (hsearch : o.Search dbuf (.missing off)) (hip : 0 < ip ∧ ip < 65536) (howed : owed pdir = 0)
    (hopen : writers pdir < s.iCount pdir) :
    Ensures (Answers exact) s (Sys.wdir pdir off dbuf ip) fun r t ↦
      (t.iCount = less s.iCount pdir ∧ ∀ j, j ≠ pdir → t.file j = s.file j) ∧
        (r = none ∧ Linked exact writers t (owe owed ip (-1)) ∧ o.Gains dbuf ip (t.file pdir) ∨
          r ≠ none ∧ Linked exact writers t owed) := by
  refine ensures_inode fun o' hpdir' ↦ ?_
  obtain rfl := Option.some.inj (hpdir.symm.trans hpdir')
  split
  · refine h.ensures_iput howed hopen fun t hlinked hcount hfile ↦ ensures_pure ⟨⟨hcount, fun j hj ↦ ?_⟩, .inr ⟨?_, hlinked⟩⟩
    · rcases hfile with hsame | hgone
      · rw [hsame]
      · rw [hgone, Function.update_of_ne hj]
    · exact Option.some_ne_none _
  · rename_i hnlink
    have hpos : 0 < o.nlink := not_le.mp hnlink
    cases hsearch with
    | @missing k hnone hk hempty hfirst =>
      refine ensures_cmd_bind fun x t hsees ↦ ?_
      obtain ⟨rest, err⟩ := x
      have hbalance (i : ℕ) (hi : 0 < i) : owe owed ip (if err = none then -1 else 0) i = owed i +
          (if err = none ∧ k < o.slots ∧ o.ino k = i then 1 else 0) - if err = none ∧ ip = i then 1 else 0 := by
        refine owe_gained (fun hlive ↦ ?_) owed ip i
        have hzero := hempty hlive.2.1
        omega
      obtain ⟨o', hedits, rfl, hlinked⟩ := h.enter hsees.sees hpdir hdir hk hip.2 (fun _ ↦ ⟨hpos, hnone⟩) hbalance
      have hself : Function.update s.file pdir (some o') pdir = some o' := Function.update_self ..
      refine ensures_iput_of_pos hself (hedits.nlink ▸ hpos : 0 < o'.nlink) (ensures_pure ?_)
      refine ⟨⟨rfl, fun j hj ↦ Function.update_of_ne hj ..⟩, ?_⟩
      have hless := hlinked.less hopen
      cases err with
      | none => exact .inl ⟨rfl, hless, o', k, hself, hedits, hk, hempty⟩
      | some e =>
        rw [if_neg (Option.some_ne_none e), owe_zero] at hless
        exact .inr ⟨Option.some_ne_none _, hless⟩

/-- A new file that is in use, with its entry. -/
structure Made (file : ℕ → Option Object) (t : Files) (n : ℕ → ℕ) (o : Object) (pdir : ℕ) (dbuf : Name) (ip : ℕ)
    (new : Object) : Prop where
  count : t.iCount = more n ip
  fresh : file ip = none
  pos : 0 < ip
  made : t.file ip = some new
  gains : o.Gains dbuf ip (t.file pdir)
  others : ∀ j, j ≠ pdir → j ≠ ip → t.file j = file j

/-- A new inode stays in use; when there is no entry for it, it goes. -/
theorem maknode_spec {n : ℕ → ℕ} {mode : ℕ} {dev : ℤ} (h : Linked exact writers s 0) (hcount : s.iCount = more n pdir)
    (hopen : ∀ i, writers i ≤ n i) (hpdir : s.file pdir = some o) (hdir : o.IsDir) (hsearch : o.Search dbuf (.missing off)) :
    Ensures (Answers exact) s (Sys.maknode u mode dev pdir off dbuf) fun r t ↦
      Linked exact writers t 0 ∧ (∀ e, r = .error e → t.iCount = n) ∧
        ∀ ip, r = .ok ip → Made s.file t n o pdir dbuf ip ⟨fileMode mode, 1, u.uid, u.gid, 0, fun _ ↦ 0, dev⟩ := by
  refine ensures_cmd_bind fun x t hsees ↦ ?_
  obtain ⟨rfl, rfl⟩ | ⟨ip, rfl, hnone, hip, rfl, hlinked⟩ := h.makeInode hsees.sees
  · refine h.ensures_iput rfl (lt_more hcount (hopen pdir)) fun t hlinked hcount' _ ↦
      ensures_pure ⟨hlinked, fun e _ ↦ ?_, fun ip hok ↦ ?_⟩
    · rw [hcount', hcount, less_more]
    · cases hok
  · have hne : ip ≠ pdir := fun heq ↦ absurd (heq ▸ hnone) (hpdir ▸ Option.some_ne_none o)
    have hpdir' : Function.update s.file ip (some ⟨fileMode mode, 1, u.uid, u.gid, 0, fun _ ↦ 0, dev⟩) pdir = some o := by
      rw [Function.update_of_ne hne.symm, hpdir]
    have howed : owe (0 : ℕ → ℤ) ip 1 pdir = 0 := by
      rw [owe_apply, if_neg hne.symm]
      rfl
    have hopen' : writers pdir < more s.iCount ip pdir := (lt_more hcount (hopen pdir)).trans_le (le_more s.iCount ip pdir)
    have hback : owe (owe (0 : ℕ → ℤ) ip 1) ip (-1) = 0 := (owe_owe 0 ip 1 (-1)).trans (owe_zero 0 ip)
    refine (wdir_spec hlinked hpdir' hdir hsearch hip howed hopen').bind fun r t ht ↦ ?_
    obtain ⟨⟨hcount', hfile⟩, hcases⟩ := ht
    have hnew : t.file ip = some ⟨fileMode mode, 1, u.uid, u.gid, 0, fun _ ↦ 0, dev⟩ := by
      rw [hfile ip hne]
      exact Function.update_self ..
    dsimp only at hcount'
    rw [hcount, less_more_of_ne hne] at hcount'
    obtain ⟨rfl, hlinked', hgains⟩ | ⟨hsome, hlinked'⟩ := hcases
    · rw [hback] at hlinked'
      refine ensures_pure ⟨hlinked', fun e herr ↦ (by cases herr), fun i hok ↦ ?_⟩
      cases hok
      exact ⟨hcount', hnone, hip.1, hnew, hgains, fun j hj hji ↦ (hfile j hj).trans (Function.update_of_ne hji ..)⟩
    · obtain ⟨e, rfl⟩ := Option.ne_none_iff_exists'.mp hsome
      refine hlinked'.ensures_addLinks.bind fun _ t' ht' ↦ ?_
      obtain ⟨hlinked'', hcount'', -⟩ := ht'
      rw [hback] at hlinked''
      have hused := lt_more (hcount''.trans hcount') (hopen ip)
      refine hlinked''.ensures_iput rfl hused fun v hlast hgone _ ↦ ensures_pure ⟨hlast, fun _ _ ↦ ?_, fun i hok ↦ ?_⟩
      · rw [hgone, hcount'', hcount', less_more]
      · cases hok

end Entries

section Calls

variable {exact : Prop} {writers n : ℕ → ℕ} {s t : Files} {o : Object} {i : ℕ} {path : List Name} {u : User} {α : Type}

/-- Between two calls the links are right, and nothing is in use that was not before. -/
def Settled (exact : Prop) (writers n : ℕ → ℕ) (s : Files) : Prop := Linked exact writers s 0 ∧ s.iCount = n

/-- One more call. -/
theorem Settled.ensures {p : Sys α} {q : α → Files → Prop} (h : Settled exact writers n s) (hroot : 0 < n ROOTINO)
    (hp : Linked exact writers s 0 → 0 < s.iCount ROOTINO →
      Ensures (Answers exact) s p fun a t ↦ Settled exact writers s.iCount t ∧ q a t) :
    Ensures (Answers exact) s p fun a t ↦ Settled exact writers n t ∧ q a t := by
  obtain ⟨hlinked, rfl⟩ := h
  exact hp hlinked hroot

/-- The end of a call. -/
theorem Linked.ensures_last {f : Unit → Sys α} {post : α → Files → Prop} (h : Linked exact writers t 0)
    (hopen : ∀ i, writers i ≤ n i) (hcount : t.iCount = Filsys.more n i)
    (hpost : ∀ t, Settled exact writers n t → Ensures (Answers exact) t (f ()) post) :
    Ensures (Answers exact) t (Sys.iput i >>= f) post := by
  refine h.ensures_iput rfl (lt_more hcount (hopen i)) fun t' hlinked hcount' _ ↦ hpost t' ⟨hlinked, ?_⟩
  rw [hcount', hcount, less_more]

end Calls

end S8000.Filsys
