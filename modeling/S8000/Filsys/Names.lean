import S8000.Filsys.Paths

/-! `link` and `unlink`, and where paths lead after them. -/

namespace S8000.Filsys

open Foundation Foundation.Bytes Foundation.Buffer

section Resolving

variable {exact : Prop} {writers : ℕ → ℕ} {s t v : Files} {file : ℕ → Option Object} {o : Object}
  {d i j k : ℕ} {name : Name} {before path : List Name}

theorem Resolves.uncons (h : Resolves file d (name :: path) i) :
    ∃ o k, file d = some o ∧ o.IsDir ∧ k < o.slots ∧ o.ino k ≠ 0 ∧ o.name k = name ∧ Resolves file (o.ino k) path i := by
  cases h with
  | step hd hdir hk hlive h => exact ⟨_, _, hd, hdir, hk, hlive, rfl, h⟩

theorem Resolves.snoc (h : Resolves file d before i) (hi : file i = some o) (hdir : o.IsDir) (hk : k < o.slots)
    (hlive : o.ino k ≠ 0) : Resolves file d (before ++ [o.name k]) (o.ino k) := by
  induction h with
  | here d => exact .step hi hdir hk hlive (.here _)
  | step hd hdir' hk' hlive' _ ih => exact .step hd hdir' hk' hlive' (ih hi)

theorem Resolves.unsnoc (h : Resolves file d (before ++ [name]) i) :
    ∃ e o k, Resolves file d before e ∧ file e = some o ∧ o.IsDir ∧ k < o.slots ∧ o.ino k ≠ 0 ∧ o.name k = name ∧
      o.ino k = i := by
  induction before generalizing d with
  | nil =>
    obtain ⟨o, k, hd, hdir, hk, hlive, hname, hrest⟩ := h.uncons
    cases hrest
    exact ⟨d, o, k, .here d, hd, hdir, hk, hlive, hname, rfl⟩
  | cons first before ih =>
    obtain ⟨o, k, hd, hdir, hk, hlive, hname, hrest⟩ := Resolves.uncons h
    obtain ⟨e, o', k', hbefore, hlast⟩ := ih hrest
    refine ⟨e, o', k', ?_, hlast⟩
    rw [← hname]
    exact .step hd hdir hk hlive hbefore

/-- A path leads to one inode. -/
theorem Linked.resolves_unique {owed : ℕ → ℤ} (h : Linked exact writers s owed) (hi : Resolves s.file d path i)
    (hj : Resolves s.file d path j) : i = j := by
  induction path generalizing d with
  | nil =>
    cases hi
    cases hj
    rfl
  | cons name path ih =>
    obtain ⟨o, k, hd, hdir, hk, hlive, hname, hrest⟩ := hi.uncons
    obtain ⟨o', k', hd', -, hk', hlive', hname', hrest'⟩ := hj.uncons
    obtain rfl := Option.some.inj (hd.symm.trans hd')
    obtain rfl := (h.proper d o hd).unique hdir k k' hk hk' hlive hlive' (hname.trans hname'.symm)
    exact ih hrest hrest'

/-- The directories of `s` are directories of `t`, with all their entries. -/
def Files.Within (s t : Files) : Prop :=
  ∀ d o, s.file d = some o → o.IsDir → ∃ o', t.file d = some o' ∧ o'.IsDir ∧
    ∀ k < o.slots, o.ino k ≠ 0 → k < o'.slots ∧ o'.ino k = o.ino k ∧ o'.name k = o.name k

theorem Files.Within.of_same (h : ∀ d o, s.file d = some o → o.IsDir → t.file d = some o) : s.Within t :=
  fun d o hd hdir ↦ ⟨o, h d o hd hdir, hdir, fun _ hk _ ↦ ⟨hk, rfl, rfl⟩⟩

theorem Files.Within.trans (h : s.Within t) (h' : t.Within v) : s.Within v := by
  intro d o hd hdir
  obtain ⟨o', hd', hdir', hentries⟩ := h d o hd hdir
  obtain ⟨o₂, hd₂, hdir₂, hentries'⟩ := h' d o' hd' hdir'
  refine ⟨o₂, hd₂, hdir₂, fun k hk hlive ↦ ?_⟩
  obtain ⟨hk', hino, hname⟩ := hentries k hk hlive
  obtain ⟨hk₂, hino₂, hname₂⟩ := hentries' k hk' (hino ▸ hlive)
  exact ⟨hk₂, hino₂.trans hino, hname₂.trans hname⟩

/-- Paths lead where they led. -/
theorem Resolves.mono (h : Resolves s.file d path i) (hwithin : s.Within t) : Resolves t.file d path i := by
  induction h with
  | here d => exact .here d
  | step hd hdir hk hlive _ ih =>
    obtain ⟨o', hd', hdir', hentries⟩ := hwithin _ _ hd hdir
    obtain ⟨hk', hino, hname⟩ := hentries _ hk hlive
    rw [← hino] at ih hlive
    rw [← hname]
    exact .step hd' hdir' hk' hlive ih

/-- One file changes. -/
theorem within_update {o' : Object} (hd : s.file d = some o)
    (h : o.IsDir → o'.IsDir ∧ ∀ k < o.slots, o.ino k ≠ 0 → k < o'.slots ∧ o'.ino k = o.ino k ∧ o'.name k = o.name k)
    (ht : t.file = Function.update s.file d (some o')) : s.Within t := by
  intro e p he hdir
  by_cases hed : e = d
  · rw [hed] at he ⊢
    obtain rfl := Option.some.inj (hd.symm.trans he)
    obtain ⟨hdir', hentries⟩ := h hdir
    exact ⟨o', by rw [ht, Function.update_self], hdir', hentries⟩
  · exact ⟨p, by rw [ht, Function.update_of_ne hed, he], hdir, fun _ hk _ ↦ ⟨hk, rfl, rfl⟩⟩

theorem within_nlink {nlink : ℤ} (hd : s.file d = some o) (ht : t.file = Function.update s.file d (some { o with nlink })) :
    s.Within t ∧ t.Within s := by
  refine ⟨within_update hd ?_ ht, fun e p he hdir ↦ ?_⟩
  · exact fun hdir ↦ ⟨hdir, fun k hk _ ↦ ⟨hk, rfl, rfl⟩⟩
  rw [ht] at he
  by_cases hed : e = d
  · rw [hed, Function.update_self] at he
    obtain rfl := Option.some.inj he
    exact ⟨o, hed ▸ hd, hdir, fun k hk _ ↦ ⟨hk, rfl, rfl⟩⟩
  · rw [Function.update_of_ne hed] at he
    exact ⟨p, he, hdir, fun _ hk _ ↦ ⟨hk, rfl, rfl⟩⟩

theorem within_of_gone (h : t.file = s.file ∨ t.file = Function.update s.file i none) : t.Within s := by
  refine .of_same fun d o hd _ ↦ ?_
  rcases h with hsame | hgone
  · rw [← hsame]
    exact hd
  · rw [hgone] at hd
    by_cases hdi : d = i
    · rw [hdi, Function.update_self] at hd
      cases hd
    · rwa [Function.update_of_ne hdi] at hd

/-- What a path with an entry at its end leads to has a link. -/
theorem Linked.resolved (h : Linked exact writers s 0) (hres : Resolves s.file d (before ++ [name]) i) :
    ∃ o, s.file i = some o ∧ 0 < o.nlink := by
  obtain ⟨e, o, k, -, he, hdir, hk, hlive, -, hino⟩ := hres.unsnoc
  rw [← hino]
  exact h.named he hdir hk hlive le_rfl

end Resolving

section Entries

variable {s t : Files} {o o' : Object} {d ip j k pdir : ℕ} {dbuf name : Name} {err : Option Errno} {before : List Name}

/-- After a new entry. -/
theorem Object.Gains.within (h : o.Gains dbuf ip (t.file pdir)) (hdp : s.file pdir = some o)
    (hfile : ∀ j, j ≠ pdir → t.file j = s.file j) : s.Within t := by
  obtain ⟨o', k, hself, hedits, hk, hempty⟩ := h
  refine within_update hdp (fun hdir ↦ ⟨hedits.isDir.mpr hdir, fun m hm hlive ↦ ?_⟩) (funext fun e ↦ ?_)
  · have hmk : m ≠ k := fun heq ↦ hlive (heq ▸ hempty (heq ▸ hm))
    obtain ⟨hino, hname⟩ := hedits.others m hmk
    refine ⟨?_, hino, hname⟩
    rcases hedits.slots with hslots | ⟨herr, -⟩
    · omega
    · exact absurd rfl herr
  · by_cases he : e = pdir
    · rw [he, hself, Function.update_self]
    · rw [hfile e he, Function.update_of_ne he]

theorem Object.Gains.resolves (h : o.Gains dbuf ip (t.file pdir)) (hdir : o.IsDir) (hip : 0 < ip)
    (hbefore : Resolves t.file d before pdir) : Resolves t.file d (before ++ [dbuf]) ip := by
  obtain ⟨o', k, hself, hedits, hk, hempty⟩ := h
  obtain ⟨hino, hname, -⟩ := hedits.done rfl
  have hslots : k < o'.slots := by
    rcases hedits.slots with hslots | ⟨herr, -⟩
    · omega
    · exact absurd rfl herr
  have hlast := hbefore.snoc hself (hedits.isDir.mpr hdir) hslots (hino ▸ hip.ne')
  rw [hname, hino] at hlast
  exact hlast

/-- After a new file. -/
theorem Made.within {c : ℕ → ℕ} {new : Object} (h : Made s.file t c o pdir dbuf ip new)
    (hdp : s.file pdir = some o) : s.Within t := by
  have hne : pdir ≠ ip := fun heq ↦ absurd (heq ▸ h.fresh) (hdp ▸ Option.some_ne_none o)
  have hsame (j : ℕ) (hj : j ≠ ip) : Function.update s.file ip (t.file ip) j = s.file j := Function.update_of_ne hj ..
  have hself : Function.update s.file ip (t.file ip) ip = t.file ip := Function.update_self ..
  have hmade : s.Within ⟨Function.update s.file ip (t.file ip), s.iCount⟩ := by
    refine .of_same fun d p hd _ ↦ (hsame d ?_).trans hd
    intro hdi
    rw [hdi, h.fresh] at hd
    cases hd
  refine hmade.trans (h.gains.within ((hsame pdir hne).trans hdp) fun j hj ↦ ?_)
  by_cases hji : j = ip
  · rw [hji]
    exact hself.symm
  · exact (h.others j hj hji).trans (hsame j hji).symm

/-- After an entry is deleted. -/
theorem Object.Edits.within (h : o.Edits k 0 name err o') (hk : k ≤ o.slots) (hd : s.file d = some o)
    (ht : t.file = Function.update s.file d (some o')) : t.Within s := by
  intro e p he hdir
  rw [ht] at he
  by_cases hed : e = d
  · rw [hed, Function.update_self] at he
    obtain rfl := Option.some.inj he
    refine ⟨o, hed ▸ hd, h.isDir.mp hdir, fun m hm hlive ↦ ?_⟩
    obtain ⟨-, -, hino, -⟩ | ⟨-, hlt, -, hino, hname⟩ := h.live hk hm hlive
    · exact absurd hino hlive
    · exact ⟨hlt, hino.symm, hname.symm⟩
  · rw [Function.update_of_ne hed] at he
    exact ⟨p, he, hdir, fun _ hm _ ↦ ⟨hm, rfl, rfl⟩⟩

/-- The path to a deleted entry leads nowhere. -/
theorem Linked.not_resolves {exact : Prop} {writers : ℕ → ℕ} {owed : ℕ → ℤ} (h : Linked exact writers s owed)
    (hedits : o.Edits k 0 dbuf err o') (hpp : s.file pdir = some o) (hdir : o.IsDir) (hk : k < o.slots) (hlive : o.ino k ≠ 0)
    (hname : o.name k = dbuf) (hresolves : Resolves s.file d before pdir)
    (ht : t.file = Function.update s.file pdir (some o')) : ¬ Resolves t.file d (before ++ [dbuf]) j := by
  intro hj
  obtain ⟨e, p, m, he, hp, -, hm, hm', hlast, -⟩ := hj.unsnoc
  obtain rfl := h.resolves_unique (he.mono (hedits.within hk.le hpp ht)) hresolves
  rw [ht, Function.update_self] at hp
  obtain rfl := Option.some.inj hp
  obtain ⟨-, -, hzero, -⟩ | ⟨hmk, hlt, hlive', -, hname'⟩ := hedits.live hk.le hm hm'
  · exact hm' hzero
  · have hsame : o.name m = o.name k := hname'.symm.trans (hlast.trans hname.symm)
    exact hmk ((h.proper e o hpp).unique hdir m k hlt hk hlive' hlive hsame)

end Entries

section Calls

variable {exact : Prop} {writers : ℕ → ℕ} {s t : Files} {path target linkname : List Name} {u : User}

/-- A new file is put out of use. -/
theorem Made.ensures_iput {α : Type} {f : Unit → Sys α} {post : α → Files → Prop} {o new : Object} {pdir ip d : ℕ}
    {dbuf : Name} {before : List Name} (hmade : Made s.file t s.iCount o pdir dbuf ip new) (h : Linked exact writers s 0)
    (hlinked : Linked exact writers t 0) (hdp : s.file pdir = some o) (hdir : o.IsDir)
    (hresolves : Resolves s.file d before pdir) (hnlink : new.nlink = 1)
    (hpost : ∀ t, Settled exact writers s.iCount t → s.Within t → Resolves t.file d (before ++ [dbuf]) ip →
      Ensures (Answers exact) t (f ()) post) : Ensures (Answers exact) t (Sys.iput ip >>= f) post := by
  have hwithin := hmade.within hdp
  have hless := hlinked.less (lt_more hmade.count (h.opened ip))
  refine ensures_iput_of_pos hmade.made (hnlink ▸ Int.one_pos) (hpost _ ⟨hless, ?_⟩ hwithin ?_)
  · dsimp only
    rw [hmade.count, less_more]
  · exact hmade.gains.resolves hdir hmade.pos (hresolves.mono hwithin)

/-- After `mknod` the path leads to a new file. -/
theorem mknod_spec {mode : ℕ} {dev : ℤ} (h : Linked exact writers s 0) (hroot : 0 < s.iCount ROOTINO) :
    Ensures (Answers exact) s (Sys.mknod u mode dev path) fun r t ↦ Settled exact writers s.iCount t ∧
      (r = none → s.Within t ∧ ∃ ip, s.file ip = none ∧ Resolves t.file ROOTINO path ip) := by
  have hfailed {e : UError} {t : Files} (ht : Settled exact writers s.iCount t) : Settled exact writers s.iCount t ∧
      (some e = none → s.Within t ∧ ∃ ip, s.file ip = none ∧ Resolves t.file ROOTINO path ip) :=
    ⟨ht, fun hnone ↦ absurd hnone (Option.some_ne_none e)⟩
  refine (namei_spec h (fun _ ↦ le_rfl) hroot).bind fun r t hnamed ↦ ?_
  cases hnamed with
  | found hflag hresolves hkeeps => exact hkeeps.ensures_iput (ensures_pure (hfailed ⟨h, rfl⟩))
  | create hflag hpath hresolves hkeeps hdp hdir hsearch =>
    refine (maknode_spec (h.more hdp) rfl h.opened hdp hdir hsearch).bind fun r t ht ↦ ?_
    obtain ⟨hlinked, herror, hok⟩ := ht
    cases r with
    | ok ip =>
      refine (hok ip rfl).ensures_iput h hlinked hdp hdir hresolves rfl fun t ht hwithin hnew ↦ ?_
      exact ensures_pure ⟨ht, fun _ ↦ ⟨hwithin, ip, (hok ip rfl).fresh, hpath ▸ hnew⟩⟩
    | error e => exact ensures_pure (hfailed ⟨hlinked, herror e rfl⟩)
  | delete hflag => cases hflag
  | error e => exact ensures_pure (hfailed ⟨h, rfl⟩)

/-- `link` makes a name for what its first path leads to. -/
theorem link_spec (h : Linked exact writers s 0) (hroot : 0 < s.iCount ROOTINO) :
    Ensures (Answers exact) s (Sys.link u target linkname) fun r t ↦ Settled exact writers s.iCount t ∧
      (r = none → s.Within t ∧ ∃ ip, Resolves s.file ROOTINO target ip ∧ Resolves t.file ROOTINO linkname ip) := by
  have hfailed {e : UError} {t : Files} (ht : Settled exact writers s.iCount t) : Settled exact writers s.iCount t ∧
      (some e = none → s.Within t ∧ ∃ ip, Resolves s.file ROOTINO target ip ∧ Resolves t.file ROOTINO linkname ip) :=
    ⟨ht, fun hnone ↦ absurd hnone (Option.some_ne_none e)⟩
  have hsame {e : UError} := @hfailed e s ⟨h, rfl⟩
  refine (namei_spec h (fun _ ↦ le_rfl) hroot).bind fun r t hnamed ↦ ?_
  cases hnamed with
  | @found ip hflag hresolves hkeeps =>
    refine ensures_inode fun o ho ↦ ?_
    split
    · exact hkeeps.ensures_iput (ensures_pure hsame)
    · have hlinked := h.more ho
      have hroot' : 0 < more s.iCount ip ROOTINO := by
        unfold more
        by_cases hip : ROOTINO = ip
        · rw [hip, Function.update_self]
          exact Nat.succ_pos _
        · rw [Function.update_of_ne hip]
          exact hroot
      refine (namei_spec hlinked (fun _ ↦ le_rfl) hroot').bind fun r t hnamed ↦ ?_
      cases hnamed with
      | found hflag' hresolves' hkeeps' => exact hkeeps'.ensures_iput (hkeeps.ensures_iput (ensures_pure hsame))
      | @create before dbuf pdir off o' hflag' hpath hresolves' hkeeps' hdp hdir hsearch =>
        have hopen := lt_more rfl (hlinked.opened pdir)
        refine (wdir_spec (hlinked.more hdp) hdp hdir hsearch (h.lt ho) rfl hopen).bind fun err t ht ↦ ?_
        obtain ⟨⟨hcount, hfile⟩, hcases⟩ := ht
        dsimp only at hcount
        rw [less_more] at hcount
        have hback : owe (owe (0 : ℕ → ℤ) ip (-1)) ip 1 = 0 := (owe_owe 0 ip (-1) 1).trans (owe_zero 0 ip)
        obtain ⟨rfl, hlinked', hgains⟩ | ⟨hsome, hlinked'⟩ := hcases
        · dsimp only
          rw [if_pos rfl]
          refine hlinked'.ensures_addLinks.bind fun _ t' ht' ↦ ?_
          obtain ⟨hlinked'', hcount', o₁, ho₁, hfile'⟩ := ht'
          rw [hback] at hlinked''
          obtain ⟨hwithin', -⟩ := within_nlink ho₁ hfile'
          have hwithin : s.Within t := hgains.within hdp hfile
          have hnew := (hgains.resolves hdir (h.lt ho).1 (hresolves'.mono hwithin)).mono hwithin'
          rw [← hpath] at hnew
          obtain ⟨o₂, ho₂, hpos⟩ := hlinked''.resolved (hpath ▸ hnew)
          have hopen' : writers ip < t'.iCount ip := lt_more (hcount'.trans hcount) (h.opened ip)
          refine ensures_iput_of_pos ho₂ hpos (ensures_pure ⟨⟨hlinked''.less hopen', ?_⟩, fun _ ↦ ?_⟩)
          · dsimp only
            rw [hcount', hcount, less_more]
          · exact ⟨hwithin.trans hwithin', ip, hresolves, hnew⟩
        · dsimp only
          rw [if_neg hsome]
          refine hlinked'.ensures_last h.opened hcount fun t ht ↦ ensures_pure ⟨ht, fun hnone ↦ absurd hnone hsome⟩
      | delete hflag' => cases hflag'
      | error e => exact hkeeps.ensures_iput (ensures_pure hsame)
  | create hflag => cases hflag
  | delete hflag => cases hflag
  | error e => exact ensures_pure hsame

/-- Where a path led, it leads nowhere after `unlink`. -/
theorem unlink_spec (h : Linked exact writers s 0) (hroot : 0 < s.iCount ROOTINO) :
    Ensures (Answers exact) s (Sys.unlink u path) fun r t ↦ Settled exact writers s.iCount t ∧
      (r = none → t.Within s ∧ (∃ ip, Resolves s.file ROOTINO path ip) ∧ ∀ i, ¬ Resolves t.file ROOTINO path i) := by
  have hsame {e : UError} : Settled exact writers s.iCount s ∧
      (some e = none → s.Within s ∧ (∃ ip, Resolves s.file ROOTINO path ip) ∧ ∀ i, ¬ Resolves s.file ROOTINO path i) :=
    ⟨⟨h, rfl⟩, fun hnone ↦ absurd hnone (Option.some_ne_none e)⟩
  refine (namei_spec h (fun _ ↦ le_rfl) hroot).bind fun r t hnamed ↦ ?_
  cases hnamed with
  | found hflag => exact absurd rfl hflag
  | create hflag => cases hflag
  | error e => exact ensures_pure hsame
  | @delete before dbuf pp off ino o hflag hpath hresolves hkeeps hpp hdir hsearch =>
    cases hsearch with
    | @found k hk hlive hname hfirst =>
      have hlinked := h.more hpp
      obtain ⟨o', ho', hnlink⟩ := h.named hpp hdir hk hlive le_rfl
      refine ensures_iget fun o₁ ho₁ ↦ ensures_inode fun o₂ ho₂ ↦ ?_
      obtain rfl := Option.some.inj (ho'.symm.trans ho₁)
      obtain rfl := Option.some.inj (ho'.symm.trans ho₂)
      have hkeeps' : (⟨s.file, more s.iCount pp⟩ : Files).Keeps (o.ino k) := .inr ⟨o', ho', hnlink⟩
      split
      · exact hkeeps'.ensures_iput (hkeeps.ensures_iput (ensures_pure hsame))
      · have hlinked' := hlinked.more ho'
        refine ensures_cmd_bind fun x t hsees ↦ ?_
        obtain ⟨rest, err⟩ := x
        have hbalance (i : ℕ) (hi : 0 < i) : owe (0 : ℕ → ℤ) (o.ino k) (if err = none then 1 else 0) i = (0 : ℕ → ℤ) i +
            (if err = none ∧ k < o.slots ∧ o.ino k = i then 1 else 0) - if err = none ∧ 0 = i then 1 else 0 :=
          owe_lost hk hi 0 (o.ino k)
        obtain ⟨o₃, hedits, ht, hlinked''⟩ :=
          hlinked'.enter hsees.sees hpp hdir hk.le (by decide) (fun hne ↦ absurd rfl hne) hbalance
        have herr : err = none := of_not_not fun hsome ↦ hlive (hedits.failed hsome).2
        rw [if_pos herr] at hlinked''
        have hback : owe (owe (0 : ℕ → ℤ) (o.ino k) 1) (o.ino k) (-1) = 0 := (owe_owe 0 _ 1 (-1)).trans (owe_zero 0 _)
        have hwritten : t.file = Function.update s.file pp (some o₃) := congrArg Files.file ht
        refine hlinked''.ensures_addLinks.bind fun _ t₀ ht₀ ↦ ?_
        obtain ⟨hlast, hcount, o₄, ho₄, hfile⟩ := ht₀
        rw [hback] at hlast
        rw [ht] at hcount
        obtain ⟨-, hwithin⟩ := within_nlink ho₄ hfile
        refine hlast.ensures_iput rfl (lt_more hcount (hlinked.opened _)) fun t₁ hlinked₁ hcount₁ hgone ↦ ?_
        rw [hcount, less_more] at hcount₁
        refine hlinked₁.ensures_iput rfl (lt_more hcount₁ (h.opened pp)) fun t₂ hlinked₂ hcount₂ hgone' ↦ ?_
        rw [hcount₁, less_more] at hcount₂
        have hdeleted := (within_of_gone hgone').trans ((within_of_gone hgone).trans hwithin)
        have hfewer := hdeleted.trans (hedits.within hk.le hpp hwritten)
        refine ensures_pure ⟨⟨hlinked₂, hcount₂⟩, fun _ ↦ ⟨hfewer, ⟨o.ino k, ?_⟩, ?_⟩⟩
        · rw [hpath, ← hname]
          exact hresolves.snoc hpp hdir hk hlive
        · intro i hi
          rw [hpath] at hi
          exact h.not_resolves hedits hpp hdir hk hlive hname hresolves hwritten (hi.mono hdeleted)

end Calls

end S8000.Filsys
