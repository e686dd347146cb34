import S8000.Restore.Files

namespace S8000.Restore

open Foundation Foundation.Bytes Foundation.Numerals V7
open Dump (Text)

namespace V7

variable {host : Host} {base fs fs' : Fs} {d i : ℕ} {n path : Text} {q : List Text} {ss : List Slot}

/-- Beside the slots, nothing of the new inode matters. -/
theorem Making.congr (h : Making base d n i ss fs) (hget : ∀ j, j ≠ i → fs'.inodes.get? j = fs.inodes.get? j)
    (hslots : fs'.slots? i = fs.slots? i) : Making base d n i ss fs' where
  fresh := h.fresh
  parent := h.parent
  missing := h.missing
  entered := by
    rw [Fs.slots?, hget d h.ne]
    exact h.entered
  frame {k} hk hmem := by
    rw [hget k fun hki ↦ h.fresh (hki ▸ hmem)]
    exact h.frame hk hmem
  only {k} hmem := by
    by_cases hki : k = i
    · exact .inr hki
    · rw [Dict.mem_def, hget k hki] at hmem
      exact h.only hmem
  owner {p p'} hp hp' := by
    rw [hget d h.ne] at hp'
    exact h.owner hp hp'
  inside hc := by
    rw [Fs.child, hslots] at hc
    exact h.inside hc

theorem Making.of_refresh (h : Making base.refresh d n i ss fs) : Making base d n i ss fs :=
  ⟨h.fresh, h.parent, h.missing, h.entered, h.frame, h.only, h.owner, h.inside⟩

theorem nameiCreate_of_walk (hpath : components path = q ++ [n]) (hq : fs.walk rootIno q = .ok d)
    (hss : fs.slots? d = some ss) (hn : lookup n ss = none) :
    fs.refresh.nameiCreate path = .ok (.inr (d, n)) := by
  have hwalk : fs.refresh.walk rootIno q = .ok d := (Fs.walk_congr (fs.slots?_refresh ·) _ _).trans hq
  have hss' : fs.refresh.slots? d = some ss := hss
  exact Fs.nameiCreate_missing hpath hwalk hss' ((Fs.child_of_slots hss').trans hn)

/-- `v7fs_mkdir` makes a directory with its two entries. -/
theorem v7fsMkdir_making (hroomy : Roomy host) (hpath : MkdirPath path q n) (hq : fs.walk rootIno q = .ok d)
    (hss : fs.slots? d = some ss) (hn : lookup n ss = none) (mode : ℕ) :
    ∃ i fs', v7fsMkdir host fs path mode = (fs', none) ∧ Making fs d n i ss fs' ∧
      fs'.slots? i = some [some (['.'], i), some (['.', '.'], d)] := by
  have hwalk : fs.refresh.walk rootIno q = .ok d := (Fs.walk_congr (fs.slots?_refresh ·) _ _).trans hq
  have hss' : fs.refresh.slots? d = some ss := hss
  unfold v7fsMkdir
  simp only [nameiCreate_of_walk hpath.self hq hss hn]
  rcases maknode_cases host n (.directory []) 0o700 hss' hn (fun _ ↦ rfl) with
    ⟨i, fs', hmk, hmaking, ⟨p, hp, hpc, -⟩, -⟩ | ⟨hfull, -⟩
  · have hsi : fs'.slots? i = some [] := by
      rw [Fs.slots?, hp, Option.bind_some, hpc]
      rfl
    simp only [hmk]
    obtain ⟨hmade, hfinish⟩ := hmaking.finish host hsi hwalk hpath.self hpath.dot hpath.dotdot
      (fun fs' h ↦ by rw [Fs.namei, hpath.dirname]; exact (h.walk hwalk).1) mode
    generalize finishMkdir host fs' path mode = r at hmade hfinish ⊢
    obtain ⟨fs'', outcome⟩ := r
    rcases hfinish with ⟨rfl, hslots, -⟩ | ⟨hfull, -⟩
    · exact ⟨i, fs'', rfl, hmade.of_refresh, hslots⟩
    · exact absurd hroomy hfull
  · exact absurd hroomy hfull

theorem v7fsMknod_making (hroomy : Roomy host) (hpath : components path = q ++ [n]) (hq : fs.walk rootIno q = .ok d)
    (hss : fs.slots? d = some ss) (hn : lookup n ss = none) (block : Bool) (mode : ℕ) (rdev : Word) :
    ∃ i fs' p, v7fsMknod host fs path block mode rdev = (fs', none) ∧ Making fs d n i ss fs' ∧
      fs'.inodes.get? i = some p ∧ p.content = .special block rdev ∧ p.nlink = 1 ∧ p.uid = 0 ∧ p.gid = 0 := by
  have hss' : fs.refresh.slots? d = some ss := hss
  unfold v7fsMknod
  simp only [nameiCreate_of_walk hpath hq hss hn]
  rcases maknode_cases host n (.special block rdev) (mode &&& 0o7777) hss' hn (fun _ ↦ rfl) with
    ⟨i, fs', hmk, hmaking, ⟨p, hp, hpc, -, howner⟩, -⟩ | ⟨hfull, -⟩
  · simp only [hmk]
    exact ⟨i, fs', p, rfl, hmaking.of_refresh, hp, hpc, howner⟩
  · exact absurd hroomy hfull

section Copy

theorem v7fsWrite_regular (hspace : Spacious host) {p : Inode} {old : List Byte} (hp : fs.inodes.get? i = some p)
    (hc : p.content = .regular old) (data : List Byte) :
    v7fsWrite host fs i data = (fs.refresh.modify i fun p ↦
      { p with content := .regular (old ++ data), mtime := now host fs.refresh }, none) := by
  rw [v7fsWrite]
  simp only [Fs.inodes_refresh, hp, Option.map_some, hc, List.take_of_length_le (hspace _ _ _), if_pos (hspace _ _ _)]

/-- The pieces of a file are put together. -/
theorem copyPieces_regular (hspace : Spacious host) {p : Inode} {old : List Byte}
    (hp : fs.inodes.get? i = some p) (hc : p.content = .regular old) (ps : List (List Byte)) :
    ∃ fs' p', copyPieces host fs i ps = (fs', none) ∧ (∀ j, j ≠ i → fs'.inodes.get? j = fs.inodes.get? j) ∧
      fs'.inodes.get? i = some p' ∧ p'.content = .regular (old ++ ps.flatten) ∧ p'.nlink = p.nlink ∧
      p'.uid = p.uid ∧ p'.gid = p.gid := by
  induction ps generalizing fs p old with
  | nil => exact ⟨fs, p, rfl, fun _ _ ↦ rfl, hp, by simpa using hc, rfl, rfl, rfl⟩
  | cons piece ps ih =>
    rw [copyPieces, v7fsWrite_regular hspace hp hc]
    have hget : ∀ j, (fs.refresh.modify i fun p ↦
        { p with content := .regular (old ++ piece), mtime := now host fs.refresh }).inodes.get? j =
          if i = j then (fs.inodes.get? j).map fun p ↦
            { p with content := .regular (old ++ piece), mtime := now host fs.refresh }
          else fs.inodes.get? j := fun j ↦ Fs.get?_modify fs.refresh i j _
    have hself := (hget i).trans (if_pos rfl)
    rw [hp, Option.map_some] at hself
    obtain ⟨fs', p', hcopy, hframe, hp', hc', hlinks, huid, hgid⟩ := ih hself rfl
    refine ⟨fs', p', hcopy, fun j hj ↦ ?_, hp', ?_, hlinks, huid, hgid⟩
    · rw [hframe j hj, hget, if_neg (Ne.symm hj)]
    · rw [hc', List.append_assoc, List.flatten_cons]

theorem copyFile_making (hroomy : Roomy host) (hspace : Spacious host) (hpath : components path = q ++ [n])
    (hq : fs.walk rootIno q = .ok d) (hss : fs.slots? d = some ss) (hn : lookup n ss = none) {source : Text}
    {data : List Byte} (hdata : host.files source = some data) (mode : ℕ) :
    ∃ i fs' p, copyFile host fs source path mode = (fs', none) ∧ Making fs d n i ss fs' ∧
      fs'.inodes.get? i = some p ∧ p.content = .regular data ∧ p.nlink = 1 ∧ p.uid = 0 ∧ p.gid = 0 := by
  have hss' : fs.refresh.slots? d = some ss := hss
  rw [copyFile, hdata]
  simp only [v7fsOpen, nameiCreate_of_walk hpath hq hss hn]
  rcases maknode_cases host n (.regular []) (mode &&& 0o7777 &&& 0o6777) hss' hn (fun _ ↦ rfl) with
    ⟨i, fs', hmk, hmaking, ⟨p, hp, hpc, -, hlinks, huid, hgid⟩, -⟩ | ⟨hfull, -⟩
  · simp only [hmk]
    obtain ⟨fs'', p', hcopy, hframe, hp', hc', hlinks', huid', hgid'⟩ :=
      copyPieces_regular hspace hp hpc (pieces 65536 data)
    rw [List.nil_append, flatten_pieces (by decide)] at hc'
    refine ⟨i, fs'', p', hcopy, (hmaking.of_refresh.congr hframe ?_), hp', hc', hlinks'.trans hlinks,
      huid'.trans huid, hgid'.trans hgid⟩
    rw [Fs.slots?, Fs.slots?, hp, hp', Option.bind_some, Option.bind_some, hpc, hc']
    rfl
  · exact absurd hroomy hfull

end Copy

end V7

section Steps

variable {host : Host} {base : Fs} {st : Replay} {e : Entry} {d i : ℕ} {n : Text} {q : List Text} {ss : List Slot}

/-- A new object with the metadata of its entry. -/
def Entry.made (host : Host) (e : Entry) (content : Content) : Inode where
  content := content
  mode := e.mode.toNat &&& 0o7777
  nlink := 1
  uid := chownId host 0 e.uid
  gid := chownId host 0 e.gid
  atime := BitVec.ofInt 32 e.atime
  mtime := BitVec.ofInt 32 e.mtime

theorem Entry.stamp_eq_made {p : Inode} {content : Content} (hc : p.content = content) (hlinks : p.nlink = 1)
    (huid : p.uid = 0) (hgid : p.gid = 0) : e.stamp host p = e.made host content := by
  rw [Entry.stamp, Entry.made, hc, hlinks, huid, hgid]

theorem V7.Making.setMetadata (h : Making base d n i ss st.fs) (hi : st.fs.namei e.path = .ok i) :
    Making base d n i ss (setMetadata host e st).fs ∧ (setMetadata host e st).failures = st.failures ∧
      (setMetadata host e st).fs.inodes.get? i = (st.fs.inodes.get? i).map (e.stamp host) := by
  obtain ⟨hget, hfailures⟩ := @setMetadata_of_ok host e st i hi
  refine ⟨h.congr (fun j hj ↦ ?_) (slots?_setMetadata i), hfailures, ?_⟩
  · rw [hget, if_neg (Ne.symm hj)]
  · rw [hget, if_pos rfl]

/-- What an entry makes at its path: a directory, or an object with its metadata. -/
structure Makes (host : Host) (e : Entry) (st : Replay) (d : ℕ) (n : Text) (ss : List Slot) (content : Option Content)
    (i : ℕ) : Prop where
  making : Making st.fs d n i ss (step host st e).fs
  failures : (step host st e).failures = st.failures
  directory : content = none → (step host st e).fs.slots? i = some [some (['.'], i), some (['.', '.'], d)]
  object {c : Content} : content = some c → (step host st e).fs.inodes.get? i = some (e.made host c)

theorem step_mkdir (hroomy : Roomy host) (he : e.kind = 'd') (hpath : MkdirPath e.path q n)
    (hq : st.fs.walk rootIno q = .ok d) (hss : st.fs.slots? d = some ss) (hn : lookup n ss = none) :
    ∃ i, Makes host e st d n ss none i := by
  obtain ⟨i, fs', hmk, hmaking, hslots⟩ := v7fsMkdir_making hroomy hpath hq hss hn 0o700
  have hroot : e.path ≠ ['/'] := by
    intro hroot
    have hself := hpath.self
    rw [hroot, show components ['/'] = [] from rfl] at hself
    cases q <;> cases hself
  have hperform : perform host st.fs e = (fs', none) := by
    rw [perform, he]
    exact (if_neg hroot).trans hmk
  have hstep : step host st e = setMetadata host e ⟨fs', st.failures⟩ := by
    rw [step, hperform]
    simp [he, isFailure]
  have hnamei := hmaking.namei hq hpath.self
  obtain ⟨hmaking', hfailures, -⟩ := @V7.Making.setMetadata host st.fs ⟨fs', st.failures⟩ e d i n ss hmaking hnamei
  refine ⟨i, ?_, ?_, fun _ ↦ ?_, nofun⟩
  · rwa [hstep]
  · rw [hstep, hfailures]
  · rw [hstep, slots?_setMetadata, hslots]

/-- A new object gets the metadata of its entry. -/
theorem makes_object {fs' : Fs} {p : Inode} {content : Content} (hkind : e.kind ≠ 'h' ∧ e.kind ≠ 'u')
    (hperform : perform host st.fs e = (fs', none)) (hnone : isFailure e none = false)
    (hpath : components e.path = q ++ [n]) (hq : st.fs.walk rootIno q = .ok d) (hmaking : Making st.fs d n i ss fs')
    (hp : fs'.inodes.get? i = some p) (hc : p.content = content) (hlinks : p.nlink = 1) (huid : p.uid = 0)
    (hgid : p.gid = 0) : Makes host e st d n ss (some content) i := by
  have hstep : step host st e = setMetadata host e ⟨fs', st.failures⟩ := by
    rw [step, hperform]
    simp [hkind, hnone]
  have hnamei := hmaking.namei hq hpath
  obtain ⟨hmaking', hfailures, hget⟩ := @V7.Making.setMetadata host st.fs ⟨fs', st.failures⟩ e d i n ss hmaking hnamei
  refine ⟨?_, ?_, nofun, fun hcontent ↦ ?_⟩
  · rwa [hstep]
  · rw [hstep, hfailures]
  · rw [hstep, hget, hp, Option.map_some, Entry.stamp_eq_made hc hlinks huid hgid, Option.some.inj hcontent]

theorem step_copy (hroomy : Roomy host) (hspace : Spacious host) (he : e.kind = 'f')
    (hpath : components e.path = q ++ [n]) (hq : st.fs.walk rootIno q = .ok d) (hss : st.fs.slots? d = some ss)
    (hn : lookup n ss = none) {data : List Byte} (hdata : host.files e.aux = some data) :
    ∃ i, Makes host e st d n ss (some (.regular data)) i := by
  obtain ⟨i, fs', p, hcopy, hmaking, hp, hc, hlinks, huid, hgid⟩ :=
    copyFile_making hroomy hspace hpath hq hss hn hdata e.mode.toNat
  have hperform : perform host st.fs e = (fs', none) := by
    rw [perform, he]
    exact hcopy
  refine ⟨i, makes_object ?_ hperform ?_ hpath hq hmaking hp hc hlinks huid hgid⟩
  · rw [he]
    decide
  · rw [isFailure, he]
    rfl

theorem step_mknod (hroomy : Roomy host) {block : Bool} (he : e.kind = if block then 'b' else 'c')
    (hpath : components e.path = q ++ [n]) (hq : st.fs.walk rootIno q = .ok d) (hss : st.fs.slots? d = some ss)
    (hn : lookup n ss = none) :
    ∃ i, Makes host e st d n ss (some (.special block (BitVec.ofNat 16 (strtoul 0 e.aux)))) i := by
  obtain ⟨i, fs', p, hmk, hmaking, hp, hc, hlinks, huid, hgid⟩ :=
    v7fsMknod_making hroomy hpath hq hss hn block (e.mode.toNat &&& 0o7777) (BitVec.ofNat 16 (strtoul 0 e.aux))
  have hperform : perform host st.fs e = (fs', none) := by
    rw [perform, he]
    cases block <;> exact hmk
  refine ⟨i, makes_object ?_ hperform ?_ hpath hq hmaking hp hc hlinks huid hgid⟩
  · rw [he]
    cases block <;> decide
  · rw [isFailure, he]
    cases block <;> rfl

end Steps

end S8000.Restore
