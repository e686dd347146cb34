import S8000.Image.Build
import S8000.Restore.Files
import S8000.Restore.Install

namespace S8000.Image

open Foundation Foundation.Bytes Restore Restore.V7
open Dump (Text)

section Faithful

/-- What the image should have of a host file: its bytes, permissions and set-id bits. -/
def Copied.file (c : Copied) : List Byte × ℕ := (c.data, c.mode &&& 0o6777)

/-- The last host file that was copied to a name. -/
def lastTo (fs : Fs) (log : List Copied) (place : ℕ × Text) : Option (List Byte × ℕ) :=
  (log.find? fun c ↦ fs.place? c.fspath = some place).map Copied.file

/-- Every name of a regular file leads to what was copied to it last. -/
def Faithful (fs : Fs) (log : List Copied) : Prop :=
  ∀ d n i file, fs.child d n = some i → fs.file i = some file → lastTo fs log (d, n) = some file

/-- The image was faithful before each copy, and is now. -/
def Build.Kept (st : Build) : Prop :=
  Faithful st.fs st.log ∧ ∀ c older, c :: older <:+ st.log → Faithful c.fs older

/-- The first copy with the hash still holds this file with these permissions; and a file that is
written over has these permissions, and no other name unless it holds these bytes already. -/
structure Copied.Safe (c : Copied) : Prop where
  linked {d : ℕ} {n target : Text} : c.fs.place? c.fspath = some (d, n) → c.fs.child d n = none →
    c.target = some target → ∃ t, c.fs.namei target = .ok t ∧ c.fs.file t = some c.file
  overwritten {d i mode : ℕ} {n : Text} {old : List Byte} : c.fs.place? c.fspath = some (d, n) →
    c.fs.child d n = some i → c.fs.file i = some (old, mode) → mode = c.mode &&& 0o6777 ∧
      (old = c.data ∨ ∀ a m, c.fs.child a m = some i → a = d ∧ m = n)

variable {fs fs' : Fs} {log : List Copied} {c : Copied} {d t : ℕ} {n : Text} {g : List Byte × ℕ}

theorem lastTo_congr (h : Wider fs fs') (hlog : ∀ c ∈ log, ∃ e, fs.place? c.fspath = some e)
    (place : ℕ × Text) : lastTo fs' log place = lastTo fs log place := by
  rw [lastTo, lastTo]
  congr 1
  induction log with
  | nil => rfl
  | cons c log ih =>
    obtain ⟨e, he⟩ := hlog c List.mem_cons_self
    rw [List.find?_cons, List.find?_cons, he, h.place he, ih fun c' hc' ↦ hlog c' (List.mem_cons_of_mem c hc')]

theorem lastTo_cons (he : fs.place? c.fspath = some (d, n)) (place : ℕ × Text) :
    lastTo fs (c :: log) place = if place = (d, n) then some c.file else lastTo fs log place := by
  rw [lastTo, List.find?_cons, he]
  by_cases hp : place = (d, n)
  · rw [if_pos hp, hp]
    simp
  · have hne : (some (d, n) : Option (ℕ × Text)) ≠ some place := fun h ↦ hp (Option.some.inj h).symm
    rw [if_neg hp, lastTo]
    simp [hne]

theorem faithful_frame_iff (h : Frame fs fs') (hlog : ∀ c ∈ log, ∃ e, fs.place? c.fspath = some e) :
    Faithful fs' log ↔ Faithful fs log := by
  constructor
  · intro hf d n i file hc hfile
    rw [← lastTo_congr h.toWider hlog]
    exact hf d n i file (h.child hc) (h.file hfile)
  · intro hf d n i file hc hfile
    obtain ⟨hc', hfile'⟩ := h.back hc hfile
    rw [lastTo_congr h.toWider hlog]
    exact hf d n i file hc' hfile'

/-- One name and one file differ: the name has the new file, and so have the other names of it. -/
theorem faithful_placed_iff (h : Placed fs fs' d n t g) (hlog : ∀ c ∈ log, ∃ e, fs.place? c.fspath = some e)
    (he : fs.place? c.fspath = some (d, n)) (hf : Faithful fs log) :
    Faithful fs' (c :: log) ↔
      g = c.file ∧ ∀ a m, ¬ (a = d ∧ m = n) → fs.child a m = some t → lastTo fs log (a, m) = some g := by
  have hlast : ∀ place, lastTo fs' (c :: log) place =
      if place = (d, n) then some c.file else lastTo fs log place := by
    intro place
    rw [lastTo_cons (h.wider.place he), lastTo_congr h.wider hlog]
  constructor
  · intro hf'
    constructor
    · have hself := hf' d n t g ((h.child d n).trans (if_pos ⟨rfl, rfl⟩)) h.self
      rw [hlast, if_pos rfl] at hself
      exact (Option.some.inj hself).symm
    · intro a m ham hc
      have hother := hf' a m t g ((h.child a m).trans ((if_neg ham).trans hc)) h.self
      rwa [hlast, if_neg fun hp ↦ ham (Prod.mk.inj hp)] at hother
  · rintro ⟨hg, hothers⟩ a m i file hc hfile
    rw [h.child] at hc
    rw [hlast]
    split at hc
    · rename_i ham
      obtain rfl := Option.some.inj hc
      rw [h.self] at hfile
      rw [if_pos (Prod.ext ham.1 ham.2), ← hg, ← Option.some.inj hfile]
    · rename_i ham
      rw [if_neg fun hp ↦ ham (Prod.mk.inj hp)]
      by_cases hi : i = t
      · subst hi
        rw [h.self] at hfile
        rw [hothers a m ham hc, ← Option.some.inj hfile]
      · rw [h.file hi] at hfile
        exact hf a m i file hc hfile

/-- What a copy makes of its name: which file the name leads to, and what it is then. -/
inductive Done (c : Copied) (d : ℕ) (n : Text) : ℕ → List Byte × ℕ → Prop
  | made {t : ℕ} : c.fs.child d n = none → c.target = none → t ∉ c.fs.inodes → Done c d n t c.file
  | linked {t : ℕ} {g : List Byte × ℕ} {target : Text} : c.fs.child d n = none → c.target = some target →
      c.fs.namei target = .ok t → c.fs.file t = some g → Done c d n t g
  | overwritten {t mode : ℕ} {old : List Byte} : c.fs.child d n = some t →
      c.fs.file t = some (old, mode) → Done c d n t (c.data, mode)

theorem faithful_done_iff (h : Placed c.fs fs' d n t g) (hready : c.fs.Ready)
    (hlog : ∀ c' ∈ log, ∃ e, c.fs.place? c'.fspath = some e) (he : c.fs.place? c.fspath = some (d, n))
    (hf : Faithful c.fs log) (hdone : Done c d n t g) : Faithful fs' (c :: log) ↔ c.Safe := by
  rw [faithful_placed_iff h hlog he hf]
  have hsame : ∀ {a m}, c.fs.place? c.fspath = some (a, m) → a = d ∧ m = n := by
    intro a m ham
    rw [he, Option.some.injEq, Prod.mk.injEq] at ham
    exact ⟨ham.1.symm, ham.2.symm⟩
  cases hdone with
  | made hnone htarget hfresh =>
    refine iff_of_true ⟨rfl, fun a m _ hc ↦ absurd (hready.sound a m t hc) hfresh⟩ ⟨?_, ?_⟩
    · intro a m target _ _ hsome
      rw [htarget] at hsome
      cases hsome
    · intro a i mode m old ham hc
      obtain ⟨rfl, rfl⟩ := hsame ham
      rw [hnone] at hc
      cases hc
  | linked hnone htarget hnamei hfile =>
    constructor
    · rintro ⟨rfl, -⟩
      refine ⟨?_, ?_⟩
      · intro a m target _ _ hsome
        rw [htarget, Option.some.injEq] at hsome
        subst hsome
        exact ⟨t, hnamei, hfile⟩
      · intro a i mode m old ham hc
        obtain ⟨rfl, rfl⟩ := hsame ham
        rw [hnone] at hc
        cases hc
    · intro hsafe
      obtain ⟨t', ht', hfile'⟩ := hsafe.linked he hnone htarget
      rw [hnamei] at ht'
      obtain rfl := Except.ok.inj ht'
      rw [hfile] at hfile'
      exact ⟨Option.some.inj hfile', fun a m _ hc ↦ hf a m t g hc hfile⟩
  | @overwritten mode old hsome hfile =>
    constructor
    · rintro ⟨hg, hothers⟩
      refine ⟨?_, ?_⟩
      · intro a m target ham hnone
        obtain ⟨rfl, rfl⟩ := hsame ham
        rw [hsome] at hnone
        cases hnone
      · intro a i mode' m old' ham hc hfile'
        obtain ⟨rfl, rfl⟩ := hsame ham
        obtain rfl := Option.some.inj (hsome.symm.trans hc)
        rw [hfile, Option.some.injEq, Prod.mk.injEq] at hfile'
        obtain ⟨rfl, rfl⟩ := hfile'
        refine ⟨congrArg Prod.snd hg, ?_⟩
        by_cases hall : ∀ a' m', c.fs.child a' m' = some t → a' = a ∧ m' = m
        · exact .inr hall
        · simp only [not_forall] at hall
          obtain ⟨a', m', hc', hne⟩ := hall
          have hnew := hothers a' m' hne hc'
          rw [hf a' m' t _ hc' hfile, Option.some.injEq, Prod.mk.injEq] at hnew
          exact .inl hnew.1
    · intro hsafe
      obtain ⟨hmode, hbytes⟩ := hsafe.overwritten he hsome hfile
      refine ⟨Prod.ext rfl hmode, fun a m ham hc ↦ ?_⟩
      rcases hbytes with rfl | hall
      · exact hf a m t _ hc hfile
      · exact absurd (hall a m hc) ham

end Faithful

section Run

variable {host : Host} {st : Build} {c : Copied} {d : ℕ} {n : Text}

/-- What holds before every call: the paths of the copies lead to names, those of `g_ded` to files. -/
structure Build.Wf (st : Build) : Prop where
  ready : st.fs.Ready
  placed : ∀ c ∈ st.log, ∃ e, st.fs.place? c.fspath = some e
  table : ∀ e ∈ st.ded, ∃ t g, st.fs.namei e.fspath = .ok t ∧ st.fs.file t = some g

/-- A run up to here is faithful throughout exactly when each of its copies was safe. -/
structure Build.Tracked (st : Build) : Prop extends st.Wf where
  kept_iff : st.Kept ↔ ∀ c ∈ st.log, c.Safe

theorem Build.Tracked.frame (h : st.Tracked) {fs : Fs} (hfs : Frame st.fs fs) :
    Build.Tracked { st with fs := fs } where
  ready := hfs.ready h.ready
  placed c hc := let ⟨e, he⟩ := h.placed c hc; ⟨e, hfs.place he⟩
  table e he := let ⟨t, g, ht, hg⟩ := h.table e he; ⟨t, g, hfs.namei ht, hfs.file hg⟩
  kept_iff := by
    rw [← h.kept_iff]
    exact and_congr_left fun _ ↦ faithful_frame_iff hfs h.placed

/-- The outcome of a copy: nothing but a failed call, or a name for the file. -/
inductive Outcome (st : Build) (c : Copied) (st' : Build) : Prop
  | refused {fs : Fs} : st' = { st with fs := fs } → Same st.fs fs → Outcome st c st'
  | copied {d t : ℕ} {n : Text} {g : List Byte × ℕ} : st.fs.place? c.fspath = some (d, n) → Done c d n t g →
      Placed st.fs st'.fs d n t g → st'.log = c :: st.log →
      (∀ e ∈ st'.ded, e ∈ st.ded ∨ e.fspath = c.fspath) → Outcome st c st'

theorem Outcome.tracked {st' : Build} (h : Outcome st c st') (hc : c.fs = st.fs) (hst : st.Tracked) :
    st'.Tracked := by
  cases h with
  | refused hst' hsame =>
    subst hst'
    exact hst.frame hsame.frame
  | @copied d t n g hplace hdone hplaced hlog hded =>
    have hplace' := hplaced.wider.place hplace
    have hself : st'.fs.child d n = some t := (hplaced.child d n).trans (if_pos ⟨rfl, rfl⟩)
    refine ⟨⟨hplaced.ready hst.ready, ?_, ?_⟩, ?_⟩
    · rw [hlog]
      intro c' hc'
      rcases List.mem_cons.mp hc' with rfl | hc'
      · exact ⟨_, hplace'⟩
      · obtain ⟨e, he⟩ := hst.placed c' hc'
        exact ⟨e, hplaced.wider.place he⟩
    · intro e he
      rcases hded e he with he | he
      · obtain ⟨t', g', ht', hg'⟩ := hst.table e he
        by_cases ht : t' = t
        · exact ⟨t', g, hplaced.wider.namei ht', ht ▸ hplaced.self⟩
        · exact ⟨t', g', hplaced.wider.namei ht', (hplaced.file ht).trans hg'⟩
      · rw [he]
        exact ⟨t, g, Fs.namei_of_place hplace' hself, hplaced.self⟩
    · -- the states before the copies are the earlier ones and `st` itself
      have hearlier : st'.Kept ↔ Faithful st'.fs (c :: st.log) ∧ st.Kept := by
        rw [Build.Kept, hlog, Build.Kept]
        refine and_congr_right fun _ ↦ ⟨fun h ↦ ⟨?_, fun c' older hs ↦ ?_⟩, ?_⟩
        · rw [← hc]
          exact h c st.log List.suffix_rfl
        · exact h c' older (hs.trans (List.suffix_cons c st.log))
        · rintro ⟨hnow, h⟩ c' older hs
          rcases List.suffix_cons_iff.mp hs with heq | hs
          · obtain ⟨rfl, rfl⟩ := List.cons.inj heq
            rwa [hc]
          · exact h c' older hs
      rw [hearlier, hlog, List.forall_mem_cons, ← hst.kept_iff]
      refine and_congr_left fun hkept ↦ ?_
      rw [← hc] at hplaced hplace
      refine faithful_done_iff hplaced ?_ ?_ hplace ?_ hdone
      · rw [hc]
        exact hst.ready
      · rw [hc]
        exact hst.placed
      · rw [hc]
        exact hkept.1

theorem write_refused (host : Host) (hready : st.fs.Ready)
    (h : ∀ d n, st.fs.place? c.fspath = some (d, n) → ∃ k, st.fs.child d n = some k ∧ st.fs.file k = none) :
    ∃ fs, st.write host c = { st with fs := fs } ∧ Same st.fs fs := by
  obtain ⟨e, fs, hopen, hsame⟩ := v7fsOpen_refused host hready h (c.mode &&& 0o7777)
  refine ⟨fs, ?_, hsame⟩
  rw [Build.write, hopen]

theorem write_refused_after (host : Host) (hready : st.fs.Ready)
    (h : ∀ d n, st.fs.place? c.fspath = some (d, n) → ∃ k, st.fs.child d n = some k ∧ st.fs.file k = none)
    {fs : Fs} (hsame : Same st.fs fs) :
    ∃ fs', Build.write host { st with fs := fs } c = { st with fs := fs' } ∧ Same fs fs' := by
  have hready' : ({ st with fs := fs } : Build).fs.Ready := hsame.ready hready
  refine write_refused host hready' fun d n hp ↦ ?_
  rw [hsame.place] at hp
  obtain ⟨k, hk, hfile⟩ := h d n hp
  exact ⟨k, (hsame.child d n).trans hk, (hsame.file k).trans hfile⟩

theorem write_placed (hspace : Spacious host) {t mode : ℕ} {fs fs' : Fs}
    (hopen : v7fsOpen host st.fs c.fspath (c.mode &&& 0o7777) = (fs', .ok t))
    (h : Placed fs fs' d n t ([], mode)) :
    Placed fs (st.write host c).fs d n t (c.data, mode) ∧ (st.write host c).log = c :: st.log ∧
      ∀ e ∈ (st.write host c).ded, e ∈ st.ded ∨ e.fspath = c.fspath := by
  have hwritten := h.writes hspace (pieces 65536 c.data)
  rw [List.nil_append, flatten_pieces (by decide)] at hwritten
  rw [Build.write, hopen]
  refine ⟨hwritten.same (v7fsChown_same host _ _ _ _), rfl, fun e he ↦ ?_⟩
  dsimp only at he
  split at he
  · rw [List.mem_append, List.mem_singleton] at he
    exact he.imp id fun he ↦ congrArg DedupEnt.fspath he
  · exact .inl he

theorem mem_of_target {target : Text} (h : c.target = some target) : ∃ e ∈ c.ded, e.fspath = target := by
  rw [Copied.target] at h
  split at h
  · obtain ⟨e, he, rfl⟩ := Option.map_eq_some_iff.mp h
    exact ⟨e, List.mem_of_find?_eq_some he, rfl⟩
  · cases h

/-- A file that can be written over is, whether or not a link was tried before. -/
theorem write_over (hspace : Spacious host) {t mode : ℕ} {old : List Byte}
    (hp : st.fs.place? c.fspath = some (d, n)) (hn : st.fs.child d n = some t)
    (hg : st.fs.file t = some (old, mode)) {fs : Fs} (hsame : Same st.fs fs) :
    Placed st.fs (Build.write host { st with fs := fs } c).fs d n t (c.data, mode) ∧
      (Build.write host { st with fs := fs } c).log = c :: st.log ∧
      ∀ e ∈ (Build.write host { st with fs := fs } c).ded, e ∈ st.ded ∨ e.fspath = c.fspath := by
  obtain ⟨fs', hopen, hplaced⟩ := v7fsOpen_there host ((hsame.place c.fspath).trans hp)
    ((hsame.child d n).trans hn) ((hsame.file t).trans hg) (c.mode &&& 0o7777)
  exact write_placed hspace hopen (hsame.placed hplaced)

/-- The cases of `copy_file`. -/
theorem copyFile_outcome (hroomy : Roomy host) (hspace : Spacious host) (hst : st.Wf) (fspath : Text)
    (mode : ℕ) (data : List Byte) :
    Outcome st ⟨st.fs, st.ded, fspath, mode, data⟩ (copyFile host st fspath mode data) := by
  unfold copyFile
  generalize hc : (⟨st.fs, st.ded, fspath, mode, data⟩ : Copied) = c
  have hfs : c.fs = st.fs := by rw [← hc]
  have hded : c.ded = st.ded := by rw [← hc]
  have hpath : c.fspath = fspath := by rw [← hc]
  rw [← hpath]
  dsimp only
  by_cases hthere : ∀ d n, st.fs.place? c.fspath = some (d, n) →
      ∃ k, st.fs.child d n = some k ∧ st.fs.file k = none
  · cases htarget : c.target with
    | none =>
      obtain ⟨fs, hwrite, hsame⟩ := write_refused host hst.ready hthere
      exact .refused hwrite hsame
    | some target =>
      obtain ⟨hfail, hlink⟩ := v7fsLink_refused host target fun d n (hp : st.fs.place? c.fspath = some (d, n)) hnone ↦ by
          obtain ⟨k, hk, -⟩ := hthere d n hp
          rw [hnone] at hk
          cases hk
      obtain ⟨e, he⟩ := Option.ne_none_iff_exists'.mp hfail
      simp only [he]
      obtain ⟨fs, hwrite, hsame⟩ := write_refused_after host hst.ready hthere hlink
      exact .refused hwrite (hlink.trans hsame)
  · simp only [not_forall, not_exists, not_and] at hthere
    obtain ⟨d, n, hp, hregular⟩ := hthere
    cases hn : st.fs.child d n with
    | none =>
      cases htarget : c.target with
      | none =>
        obtain ⟨t, fs', hopen, hfresh, hplaced⟩ := v7fsOpen_new hroomy hp hn (c.mode &&& 0o7777)
        obtain ⟨hwritten, hlog, hadded⟩ := write_placed hspace hopen hplaced
        have hfile : (c.data, c.mode &&& 0o7777 &&& 0o6777) = c.file := by
          rw [Copied.file, Nat.and_assoc]
          rfl
        rw [hfile] at hwritten
        refine .copied hp (.made ?_ htarget ?_) hwritten hlog hadded
        · rw [hfs, hn]
        · rwa [hfs]
      | some target =>
        obtain ⟨e, he, rfl⟩ := mem_of_target htarget
        obtain ⟨t, g, ht, hg⟩ := hst.table e (hded ▸ he)
        obtain ⟨hlink, hplaced⟩ := v7fsLink_placed hroomy ht hg hp hn
        simp only [hlink]
        refine .copied hp (.linked ?_ htarget ?_ ?_) hplaced rfl fun _ ↦ .inl
        · rw [hfs, hn]
        · rwa [hfs]
        · rwa [hfs]
    | some t =>
      obtain ⟨⟨old, m⟩, hg⟩ := Option.ne_none_iff_exists'.mp (hregular t hn)
      have hdone : Done c d n t (c.data, m) := by
        rw [← hfs] at hn hg
        exact .overwritten hn hg
      cases htarget : c.target with
      | none =>
        obtain ⟨hwritten, hlog, hadded⟩ := write_over hspace hp hn hg (Same.refl st.fs)
        exact .copied hp hdone hwritten hlog hadded
      | some target =>
        obtain ⟨hfail, hlink⟩ := v7fsLink_refused host target
          fun a m (ham : st.fs.place? c.fspath = some (a, m)) hnone ↦ by
            rw [hp, Option.some.injEq, Prod.mk.injEq] at ham
            rw [← ham.1, ← ham.2, hn] at hnone
            cases hnone
        obtain ⟨e, he⟩ := Option.ne_none_iff_exists'.mp hfail
        simp only [he]
        obtain ⟨hwritten, hlog, hadded⟩ := write_over hspace hp hn hg hlink
        exact .copied hp hdone hwritten hlog hadded

theorem copyFile_tracked (hroomy : Roomy host) (hspace : Spacious host) (hst : st.Tracked) (fspath : Text)
    (mode : ℕ) (data : List Byte) : (copyFile host st fspath mode data).Tracked :=
  (copyFile_outcome hroomy hspace hst.toWf fspath mode data).tracked rfl hst

mutual

theorem copyNode_tracked (hroomy : Roomy host) (hspace : Spacious host) (node : Node) {st : Build}
    (hst : st.Tracked) (fp : Text) : (copyNode host st fp node).Tracked := by
  match node with
  | .regular mode data =>
    rw [copyNode]
    exact copyFile_tracked hroomy hspace hst fp mode data
  | .directory mode entries =>
    have hmade := v7fsMkdir_frame hroomy hst.ready fp (mode &&& 0o7777)
    rw [copyNode]
    split
    · exact copyTree_tracked hroomy hspace entries
        (hst.frame (hmade.trans (v7fsChown_same host _ fp 0 0).frame)) fp
    · exact hst.frame hmade
  | .other =>
    rw [copyNode]
    exact hst

theorem copyTree_tracked (hroomy : Roomy host) (hspace : Spacious host) (entries : Entries) {st : Build}
    (hst : st.Tracked) (fsdir : Text) : (copyTree host st fsdir entries).Tracked := by
  match entries with
  | .nil =>
    rw [copyTree]
    exact hst
  | .cons name node rest =>
    rw [copyTree]
    refine copyTree_tracked hroomy hspace rest ?_ fsdir
    split
    · exact hst
    · exact copyNode_tracked hroomy hspace node hst (entryPath fsdir name)

end

theorem copyArgument_tracked (hroomy : Roomy host) (hspace : Spacious host) (hst : st.Tracked)
    (argument : Entries × Text) : (copyArgument host st argument).Tracked := by
  refine copyTree_tracked hroomy hspace argument.1 (hst.frame ?_) argument.2
  split
  · exact Frame.refl st.fs
  · exact (v7fsMkdir_frame hroomy hst.ready argument.2 0o755).trans (v7fsChown_same host _ _ 0 0).frame

theorem get?_mkfs {time : Time} {i : ℕ} {p : Inode} (h : (mkfs time).inodes.get? i = some p) :
    i = rootIno ∧ p.content = .directory [some (['.'], rootIno), some (['.', '.'], rootIno)] := by
  rw [mkfs, Dict.get?_set] at h
  split at h
  · rename_i hi
    exact ⟨hi.symm, by rw [← Option.some.inj h]⟩
  · cases h

theorem ready_mkfs (time : Time) : (mkfs time).Ready := by
  refine ⟨fun i n k hc ↦ ?_, rfl, fun i p hp ↦ ?_⟩
  · obtain ⟨ss, hss, hk⟩ := Fs.child_eq_some.mp hc
    obtain ⟨p, hp, hpc⟩ := Option.bind_eq_some_iff.mp hss
    obtain ⟨rfl, hcontent⟩ := get?_mkfs hp
    rw [hcontent] at hpc
    obtain rfl := Option.some.inj hpc
    have hroot : rootIno = k := by
      rw [lookup, lookup, lookup] at hk
      split at hk
      · exact Option.some.inj hk
      · split at hk
        · exact Option.some.inj hk
        · cases hk
    rw [← hroot]
    exact Fs.mem_of_child hc
  · rw [(get?_mkfs hp).2]
    rfl

theorem tracked_mkfs (time : Time) : Build.Tracked ⟨mkfs time, [], []⟩ := by
  refine ⟨⟨ready_mkfs time, nofun, nofun⟩, iff_of_true ⟨fun d n i file _ hfile ↦ ?_, ?_⟩ nofun⟩
  · obtain ⟨p, hp, hf⟩ := Option.bind_eq_some_iff.mp hfile
    rw [Inode.file?, (get?_mkfs hp).2] at hf
    cases hf
  · intro c older hs
    exact absurd (List.suffix_nil.mp hs) (List.cons_ne_nil c older)

/-- A run keeps every file as it was copied last, from start to end, exactly when each of its
copies is safe where it is made. -/
theorem files_kept_iff_safe (host : Host) (hroomy : Roomy host) (hspace : Spacious host)
    (arguments : List (Entries × Text)) :
    (mkv7img host arguments).Kept ↔ ∀ c ∈ (mkv7img host arguments).log, c.Safe := by
  suffices h : ∀ st : Build, st.Tracked → (arguments.foldl (copyArgument host) st).Tracked from
    (h _ (tracked_mkfs _)).kept_iff
  induction arguments with
  | nil => exact fun st hst ↦ hst
  | cons argument arguments ih => exact fun st hst ↦ ih _ (copyArgument_tracked hroomy hspace hst argument)

/-- Two equal files, and a later tree with other bytes for the first of them. -/
def overlaid : List (Entries × Text) :=
  [(.cons ['a'] (.regular 0o644 [1]) (.cons ['b'] (.regular 0o644 [1]) .nil), ['/']),
    (.cons ['a'] (.regular 0o644 [2]) .nil, ['/'])]

theorem files_kept_iff_safe_overlaid :
    (mkv7img roomyHost overlaid).Kept ↔ ∀ c ∈ (mkv7img roomyHost overlaid).log, c.Safe :=
  files_kept_iff_safe roomyHost roomy_roomyHost spacious_roomyHost overlaid

theorem overlay_changes_link :
    ¬ Faithful (mkv7img roomyHost overlaid).fs (mkv7img roomyHost overlaid).log := by
  intro h
  have hchild : (mkv7img roomyHost overlaid).fs.child rootIno ['b'] = some 4 := by decide +kernel
  have hfile : (mkv7img roomyHost overlaid).fs.file 4 = some ([2], 0o644) := by decide +kernel
  have hlast : lastTo (mkv7img roomyHost overlaid).fs (mkv7img roomyHost overlaid).log (rootIno, ['b']) =
      some ([1], 0o644) := by decide +kernel
  have hkept := h rootIno ['b'] 4 _ hchild hfile
  rw [hlast] at hkept
  exact absurd hkept (by decide)

end Run

end S8000.Image
