import S8000.Filsys.Calls

/-! Directories are made and removed by links that only the super-user may make and delete. -/

namespace S8000.Filsys

open Foundation Foundation.Bytes Foundation.Buffer

section Code

def dot : Name := fun j ↦ if j = ⟨0, by decide⟩ then 0x2e else 0

def dotdot : Name := fun j ↦ if j = ⟨0, by decide⟩ ∨ j = ⟨1, by decide⟩ then 0x2e else 0

/-- The name in an entry as a string, which a zero ends. -/
def Name.str (name : Name) : List Byte := (List.ofFn name).takeWhile (· ≠ 0)

namespace Sys

variable (u : User)

/-- `v7fs_mkdir` once it has made the new directory: its two entries, its owner and its permissions. -/
def mkdirEntries (ruid : ℤ) (path : List Name) (mode : ℕ) : Sys (Option UError) := do
  match ← link u path (path ++ [dot]) with
  | some e => pure (some e)
  | none =>
    match ← link u path.dropLast (path ++ [dotdot]) with
    | some e => pure (some e)
    | none =>
      match ← namei u .seek path with
      | .found ip =>
        let attr ← inode ip
        change ip { attr with uid := ruid }
        iput ip
        chmod u path (mode &&& 4095)
      | .error e => pure (some e)
      | _ => pure none

/-- `v7fs_mkdir`, which goes on as the super-user when the place for the entry is found. -/
def mkdir (ruid : ℤ) (path : List Name) (mode : ℕ) : Sys (Option UError) := do
  match ← namei u .create path with
  | .found ip =>
    iput ip
    pure (some .EEXIST)
  | .create pdir off dbuf =>
    match ← maknode { u with uid := 0 } (16384 ||| 448) 0 pdir off dbuf with
    | .error e => pure (some e)
    | .ok ip =>
      iput ip
      match ← mkdirEntries { u with uid := 0 } ruid path mode with
      | none => pure none
      | some e =>
        let _ ← unlink { u with uid := 0 } (path ++ [dotdot])
        let _ ← unlink { u with uid := 0 } (path ++ [dot])
        let _ ← unlink { u with uid := 0 } path
        pure (some e)
  | .error e => pure (some e)
  | _ => pure none

/-- `v7fs_enumdir` with `v7fs_failnonemptydir`, from an entry on. Its loop ends before the offset can be negative. -/
def enumdir (ip : ℕ) : ℕ → ℕ → Sys (Option UError)
  | 0, _ => pure none
  | fuel + 1, off => do
    let (bytes, err) ← readi ip off DIRECT
    match err with
    | some e => pure (some (.of e))
    | none =>
      if bytes.length < DIRECT then pure none
      else
        let dent : Buffer := fun i ↦ bytes.getD i 0
        if dIno dent 0 = 0 then enumdir ip fuel (off + DIRECT)
        else do
          iget (dIno dent 0)
          let attr ← inode (dIno dent 0)
          iput (dIno dent 0)
          if attr.isDir ∧ ((dName dent 0).str = [0x2e] ∨ (dName dent 0).str = [0x2e, 0x2e]) then
            enumdir ip fuel (off + DIRECT)
          else pure (some .ENOTEMPTY)

/-- `v7fs_rmdir` from the check that the directory is empty on. -/
def rmdirEmpty (free opens : Bool) (path : List Name) : Sys (Option UError) := do
  match ← openFile u ⟨true, false, false, false, false⟩ 0 free opens path with
  | .error e => pure (some e)
  | .ok ip =>
    let res ← enumdir ip (2147483648 / DIRECT) 0
    iput ip
    match res with
    | some e => pure (some e)
    | none =>
      if path.getLast? = some dot ∨ path.getLast? = some dotdot then pure (some .EINVAL)
      else
        match ← unlink { u with uid := 0 } (path ++ [dotdot]) with
        | some e => pure (some e)
        | none =>
          match ← unlink { u with uid := 0 } (path ++ [dot]) with
          | some e => pure (some e)
          | none => unlink { u with uid := 0 } path

def rmdir (free opens : Bool) (path : List Name) : Sys (Option UError) := do
  match ← stat u path with
  | .error e => pure (some e)
  | .ok (ino, attr) =>
    if ¬ attr.isDir then pure (some .ENOTDIR)
    else if ino = ROOTINO then pure (some .EBUSY)
    else rmdirEmpty u free opens path

end Sys

end Code

section Specs

variable {exact : Prop} {writers n : ℕ → ℕ} {s t : Files} {ip fuel off mode : ℕ} {ruid : ℤ} {path : List Name}
  {u : User} {free opens : Bool}

/-- A directory has its two entries: `.` leads to it, and `..` to where the path without its last name leads. -/
def Files.Furnished (s : Files) (path : List Name) (ip : ℕ) : Prop :=
  Resolves s.file ROOTINO path ip ∧ Resolves s.file ROOTINO (path ++ [dot]) ip ∧
    ∃ p, Resolves s.file ROOTINO path.dropLast p ∧ Resolves s.file ROOTINO (path ++ [dotdot]) p

theorem Files.Furnished.mono (h : s.Furnished path ip) (hwithin : s.Within t) : t.Furnished path ip := by
  obtain ⟨hpath, hdot, p, hparent, hdotdot⟩ := h
  exact ⟨hpath.mono hwithin, hdot.mono hwithin, p, hparent.mono hwithin, hdotdot.mono hwithin⟩

theorem mkdirEntries_spec (h : Settled exact writers n s) (hroot : 0 < n ROOTINO) :
    Ensures (Answers exact) s (Sys.mkdirEntries u ruid path mode) fun r t ↦ Settled exact writers n t ∧
      (r = none → s.Within t ∧ ∃ ip, Resolves s.file ROOTINO path ip ∧ t.Furnished path ip) := by
  have hfailed {e : UError} {t : Files} (ht : Settled exact writers n t) : Settled exact writers n t ∧
      (some e = none → s.Within t ∧ ∃ ip, Resolves s.file ROOTINO path ip ∧ t.Furnished path ip) :=
    ⟨ht, fun hnone ↦ absurd hnone (Option.some_ne_none e)⟩
  refine (h.ensures hroot link_spec).bind fun r t hfirst ↦ ?_
  obtain ⟨hsettled, hdot⟩ := hfirst
  cases r with
  | some e => exact ensures_pure (hfailed hsettled)
  | none =>
    obtain ⟨hwithin, ip, hpath, hdot⟩ := hdot rfl
    refine (hsettled.ensures hroot link_spec).bind fun r t₁ hsecond ↦ ?_
    obtain ⟨hsettled₁, hdotdot⟩ := hsecond
    cases r with
    | some e => exact ensures_pure (hfailed hsettled₁)
    | none =>
      obtain ⟨hwithin₁, p, hparent, hdotdot⟩ := hdotdot rfl
      obtain ⟨hlinked, rfl⟩ := hsettled₁
      have hentries : t₁.Furnished path ip :=
        ⟨(hpath.mono hwithin).mono hwithin₁, hdot.mono hwithin₁, p, hparent.mono hwithin₁, hdotdot⟩
      refine (namei_spec hlinked (fun _ ↦ le_rfl) hroot).bind fun r v hnamed ↦ ?_
      cases hnamed with
      | found hflag hresolves hkeeps =>
        refine ensures_inode fun o ho ↦ hkeeps.ensures_change hlinked (fun o' ho' ↦ ?_) fun t₂ hsettled₂ hwithin₂ ↦ ?_
        · rw [← Option.some.inj (ho.symm.trans ho')]
          rfl
        · refine (hsettled₂.ensures hroot chmod_spec).mono fun r t₃ hlast ↦ ⟨hlast.1, fun _ ↦ ?_⟩
          have hwithin₃ := hwithin₂.trans hlast.2
          exact ⟨hwithin.trans (hwithin₁.trans hwithin₃), ip, hpath, hentries.mono hwithin₃⟩
      | create hflag => cases hflag
      | delete hflag => cases hflag
      | error e => exact ensures_pure (hfailed ⟨hlinked, rfl⟩)

/-- A new directory has a new inode. -/
theorem mkdir_spec (h : Linked exact writers s 0) (hroot : 0 < s.iCount ROOTINO) :
    Ensures (Answers exact) s (Sys.mkdir u ruid path mode) fun r t ↦ Settled exact writers s.iCount t ∧
      (r = none → s.Within t ∧ ∃ ip, s.file ip = none ∧ t.Furnished path ip) := by
  have hfailed {e : UError} {t : Files} (ht : Settled exact writers s.iCount t) : Settled exact writers s.iCount t ∧
      (some e = none → s.Within t ∧ ∃ ip, s.file ip = none ∧ t.Furnished path ip) :=
    ⟨ht, fun hnone ↦ absurd hnone (Option.some_ne_none e)⟩
  refine (namei_spec h (fun _ ↦ le_rfl) hroot).bind fun r t hnamed ↦ ?_
  cases hnamed with
  | found hflag hresolves hkeeps => exact hkeeps.ensures_iput (ensures_pure (hfailed ⟨h, rfl⟩))
  | create hflag hpath hresolves hkeeps hdp hdir hsearch =>
    refine (maknode_spec (h.more hdp) rfl h.opened hdp hdir hsearch).bind fun r t ht ↦ ?_
    obtain ⟨hlinked, herror, hok⟩ := ht
    cases r with
    | error e => exact ensures_pure (hfailed ⟨hlinked, herror e rfl⟩)
    | ok ip =>
      refine (hok ip rfl).ensures_iput h hlinked hdp hdir hresolves rfl fun t hmade hwithin hnew ↦ ?_
      rw [← hpath] at hnew
      refine (mkdirEntries_spec hmade hroot).bind fun r t₁ hentries ↦ ?_
      obtain ⟨hsettled, hentries⟩ := hentries
      cases r with
      | none =>
        obtain ⟨hwithin₁, ip', hpath', hfurnished⟩ := hentries rfl
        obtain rfl := hmade.1.resolves_unique hnew hpath'
        exact ensures_pure ⟨hsettled, fun _ ↦ ⟨hwithin.trans hwithin₁, ip, (hok ip rfl).fresh, hfurnished⟩⟩
      | some e =>
        refine (hsettled.ensures hroot unlink_spec).bind fun _ t hfirst ↦ ?_
        refine (hfirst.1.ensures hroot unlink_spec).bind fun _ t hsecond ↦ ?_
        exact (hsecond.1.ensures hroot unlink_spec).bind fun _ t hthird ↦ ensures_pure (hfailed hthird.1)
  | delete hflag => cases hflag
  | error e => exact ensures_pure (hfailed ⟨h, rfl⟩)

/-- The names that the entries of an empty directory may have. -/
def Name.IsLink (name : Name) : Prop := name.str = [0x2e] ∨ name.str = [0x2e, 0x2e]

/-- What is read where an entry stands. -/
theorem read_entry {o : Object} {k : ℕ} {bytes : List Byte} (hrest : o.rest (DIRECT * k) DIRECT ≤ LARGEST - DIRECT * k)
    (hbytes : bytes = o.read (DIRECT * k) (min (o.rest (DIRECT * k) DIRECT) (LARGEST - DIRECT * k))) :
    (bytes.length < DIRECT → o.size < (DIRECT * k + DIRECT : ℕ)) ∧
      (¬ bytes.length < DIRECT → k < o.slots ∧ dIno (fun i ↦ bytes.getD i 0) 0 = o.ino k ∧
        dName (fun i ↦ bytes.getD i 0) 0 = o.name k) := by
  rw [min_eq_left hrest] at hbytes
  have hlen : bytes.length = o.rest (DIRECT * k) DIRECT := by
    rw [hbytes, Object.read, List.length_map, List.length_range]
  have hmin : o.rest (DIRECT * k) DIRECT = min DIRECT (o.size - (DIRECT * k : ℕ)).toNat := rfl
  refine ⟨fun hshort ↦ ?_, fun hfull ↦ ?_⟩
  · omega
  · have hget (i : ℕ) (hi : i < DIRECT) : bytes.getD i 0 = o.bytes (DIRECT * k + i) := by
      have hlt : i < bytes.length := by omega
      rw [List.getD_eq_getElem?_getD, List.getElem?_eq_getElem hlt, Option.getD_some]
      simp only [hbytes, Object.read, List.getElem_map, List.getElem_range]
    have hk : k < o.slots := by
      rw [slots_spec]
      rw [DIRECT] at *
      omega
    refine ⟨hk, ushort_congr (hget 0 (by decide)) (hget 1 (by decide)), funext fun j ↦ ?_⟩
    have hj : (j : ℕ) < 14 := j.isLt
    have hentry := hget (0 + 2 + j) (by rw [DIRECT]; omega)
    rw [Nat.zero_add, ← Nat.add_assoc] at hentry
    exact hentry

/-- By induction on what is left of the directory: when the loop finds nothing else, all entries are `.` and `..`. -/
theorem enumdir_spec {o : Object} {k : ℕ} (h : Linked exact writers s 0) (hip : s.file ip = some o) (hdir : o.IsDir) :
    Ensures (Answers exact) s (Sys.enumdir ip fuel (DIRECT * k)) fun r t ↦ t = s ∧
      (r = none → ∀ m, k ≤ m → m < k + fuel → (DIRECT * m + DIRECT : ℕ) ≤ o.size → o.ino m ≠ 0 → (o.name m).IsLink) := by
  induction fuel generalizing k with
  | zero =>
    rw [Sys.enumdir]
    exact ensures_pure ⟨rfl, fun _ m hle hlt ↦ absurd hlt (not_lt.mpr hle)⟩
  | succ fuel ih =>
    have hnext (hlast : o.ino k ≠ 0 → (o.name k).IsLink) :
        Ensures (Answers exact) s (Sys.enumdir ip fuel (DIRECT * k + DIRECT)) fun r t ↦ t = s ∧
          (r = none → ∀ m, k ≤ m → m < k + (fuel + 1) → (DIRECT * m + DIRECT : ℕ) ≤ o.size → o.ino m ≠ 0 →
            (o.name m).IsLink) := by
      refine (@ih (k + 1)).mono fun r t ht ↦ ⟨ht.1, fun hnone m hle hlt hsize hlive ↦ ?_⟩
      rcases hle.eq_or_lt with rfl | hlt'
      · exact hlast hlive
      · exact ht.2 hnone m hlt' (by omega) hsize hlive
    rw [Sys.enumdir]
    refine ensures_readi.bind fun x t ht ↦ ?_
    obtain ⟨hsame, o', hip', hx⟩ := ht
    obtain rfl := Option.some.inj (hip.symm.trans hip')
    rw [hsame, hx]
    dsimp only
    by_cases hrest : o.rest (DIRECT * k) DIRECT ≤ LARGEST - DIRECT * k
    · obtain ⟨hend, hentry⟩ := read_entry hrest rfl
      rw [if_pos hrest]
      dsimp only
      split
      · rename_i hshort
        refine ensures_pure ⟨rfl, fun _ m hle _ hsize ↦ ?_⟩
        have hsmall := hend hshort
        rw [DIRECT] at *
        omega
      · rename_i hfull
        obtain ⟨hk, hino, hname⟩ := hentry hfull
        rw [hino, hname]
        split
        · rename_i hdead
          exact hnext fun hlive ↦ absurd hdead hlive
        · rename_i hlive
          have hkeeps : s.Keeps (o.ino k) := .inr (h.named hip hdir hk hlive le_rfl)
          refine ensures_iget fun p hp ↦ ensures_inode fun p' hp' ↦ hkeeps.ensures_iput ?_
          split
          · rename_i hlink
            exact hnext fun _ ↦ hlink.2
          · exact ensures_pure ⟨rfl, fun hnone ↦ absurd hnone (Option.some_ne_none _)⟩
    · rw [if_neg hrest]
      exact ensures_pure ⟨rfl, fun hnone ↦ absurd hnone (Option.some_ne_none _)⟩

/-- A directory has no entries but `.` and `..`. Its size is less than the number that bounds them. -/
def Object.Bare (o : Object) : Prop :=
  ∀ m < 2147483648 / DIRECT, (DIRECT * m + DIRECT : ℕ) ≤ o.size → o.ino m ≠ 0 → (o.name m).IsLink

theorem openRead_spec (h : Linked exact writers s 0) (hroot : 0 < s.iCount ROOTINO) :
    Ensures (Answers exact) s (Sys.openFile u ⟨true, false, false, false, false⟩ 0 free opens path) fun r t ↦
      (∃ e, r = .error e) ∧ t = s ∨
        ∃ ip, r = .ok ip ∧ s.Keeps ip ∧ Resolves s.file ROOTINO path ip ∧ t = ⟨s.file, more s.iCount ip⟩ := by
  refine (namei_spec h (fun _ ↦ le_rfl) hroot).bind fun r t hnamed ↦ ?_
  cases hnamed with
  | found hflag hresolves hkeeps =>
    have hrefused (e : UError) : Ensures (Answers exact) ⟨s.file, more s.iCount _⟩
        (Sys.iput _ >>= fun _ ↦ pure (Except.error e)) fun r t ↦ (∃ e, r = .error e) ∧ t = s ∨
          ∃ ip, r = .ok ip ∧ s.Keeps ip ∧ Resolves s.file ROOTINO path ip ∧ t = ⟨s.file, more s.iCount ip⟩ :=
      hkeeps.ensures_iput (ensures_pure (.inl ⟨⟨e, rfl⟩, rfl⟩))
    dsimp only
    split
    · exact hrefused .EEXIST
    · refine ensures_inode fun o ho ↦ ?_
      dsimp only
      split
      · exact hrefused .EISDIR
      · split
        · exact hrefused .EACCES
        · split
          · rename_i htrunc
            exact absurd htrunc.2 (by decide)
          · split
            · exact hrefused .ENFILE
            · split
              · exact hrefused .noDevice
              · exact ensures_pure (.inr ⟨_, rfl, hkeeps, hresolves, rfl⟩)
  | create hflag => exact absurd hflag (by decide)
  | delete hflag => exact absurd hflag (by decide)
  | error e => exact ensures_pure (.inl ⟨⟨e, rfl⟩, rfl⟩)

theorem rmdirEmpty_spec {d : ℕ} {o : Object} (h : Linked exact writers s 0) (hroot : 0 < s.iCount ROOTINO)
    (hres : Resolves s.file ROOTINO path d) (hd : s.file d = some o) (hdir : o.IsDir) :
    Ensures (Answers exact) s (Sys.rmdirEmpty u free opens path) fun r t ↦ Settled exact writers s.iCount t ∧
      (r = none → o.Bare ∧ ∀ i, ¬ Resolves t.file ROOTINO path i) := by
  have hfailed {e : UError} {t : Files} (ht : Settled exact writers s.iCount t) : Settled exact writers s.iCount t ∧
      (some e = none → o.Bare ∧ ∀ i, ¬ Resolves t.file ROOTINO path i) :=
    ⟨ht, fun hnone ↦ absurd hnone (Option.some_ne_none e)⟩
  have hstart : Settled exact writers s.iCount s := ⟨h, rfl⟩
  refine (openRead_spec h hroot).bind fun r t ht ↦ ?_
  obtain ⟨⟨e, rfl⟩, rfl⟩ | ⟨ip, rfl, hkeeps, hres', rfl⟩ := ht
  · exact ensures_pure (hfailed hstart)
  · obtain rfl := h.resolves_unique hres hres'
    have henum := @enumdir_spec exact writers _ _ (2147483648 / DIRECT) _ 0 (h.more_of_keeps hkeeps) hd hdir
    refine Ensures.bind henum fun r t ht ↦ ?_
    obtain ⟨rfl, hbare⟩ := ht
    refine hkeeps.ensures_iput ?_
    cases r with
    | some e => exact ensures_pure (hfailed hstart)
    | none =>
      have hempty : o.Bare := fun m hm ↦ hbare rfl m (Nat.zero_le m) (by rwa [Nat.zero_add])
      dsimp only
      split
      · exact ensures_pure (hfailed hstart)
      · refine (hstart.ensures hroot unlink_spec).bind fun r t hfirst ↦ ?_
        cases r with
        | some e => exact ensures_pure (hfailed hfirst.1)
        | none =>
          refine (hfirst.1.ensures hroot unlink_spec).bind fun r t hsecond ↦ ?_
          cases r with
          | some e => exact ensures_pure (hfailed hsecond.1)
          | none =>
            refine (hsecond.1.ensures hroot unlink_spec).mono fun r t hthird ↦ ⟨hthird.1, fun hnone ↦ ⟨hempty, ?_⟩⟩
            exact (hthird.2 hnone).2.2

/-- Where a path led to an empty directory, it leads nowhere after `rmdir`. -/
theorem rmdir_spec (h : Linked exact writers s 0) (hroot : 0 < s.iCount ROOTINO) :
    Ensures (Answers exact) s (Sys.rmdir u free opens path) fun r t ↦ Settled exact writers s.iCount t ∧
      (r = none → (∃ d o, d ≠ ROOTINO ∧ Resolves s.file ROOTINO path d ∧ s.file d = some o ∧ o.IsDir ∧ o.Bare) ∧
        ∀ i, ¬ Resolves t.file ROOTINO path i) := by
  have hsame {e : UError} : Settled exact writers s.iCount s ∧
      (some e = none → (∃ d o, d ≠ ROOTINO ∧ Resolves s.file ROOTINO path d ∧ s.file d = some o ∧ o.IsDir ∧ o.Bare) ∧
        ∀ i, ¬ Resolves s.file ROOTINO path i) :=
    ⟨⟨h, rfl⟩, fun hnone ↦ absurd hnone (Option.some_ne_none e)⟩
  refine (stat_spec h hroot).bind fun r t ht ↦ ?_
  obtain ⟨rfl, hstat⟩ := ht
  cases r with
  | error e => exact ensures_pure hsame
  | ok x =>
    obtain ⟨ino, attr⟩ := x
    obtain ⟨hres, o, ho, rfl⟩ := hstat ino attr rfl
    dsimp only
    split
    · exact ensures_pure hsame
    · rename_i hdir
      rw [not_not, isDir_attr] at hdir
      split
      · exact ensures_pure hsame
      · rename_i hino
        refine (rmdirEmpty_spec h hroot hres ho hdir).mono fun r t ht ↦ ⟨ht.1, fun hnone ↦ ?_⟩
        obtain ⟨hbare, hgone⟩ := ht.2 hnone
        exact ⟨⟨ino, o, hino, hres, ho, hdir, hbare⟩, hgone⟩

end Specs

end S8000.Filsys
