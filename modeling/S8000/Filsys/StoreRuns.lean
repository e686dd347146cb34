import S8000.Filsys.StoreMkfs
import S8000.Foundation.Simulation

/-! The file system as a store of files: what its calls do to them in every run. -/

namespace S8000.Filsys

open Foundation Foundation.Bytes Foundation.Buffer

section Code

def fileMode (mode : ℕ) : ℕ := if mode &&& IFMT = 0 then mode ||| 32768 else mode

/-- What `maknode` makes of an inode. -/
def Inode.made (ip : Inode) (mode : ℕ) (uid gid dev : ℤ) : Inode :=
  { ip with
    iAddr := Function.update ip.iAddr 0 dev
    iMode := fileMode mode
    iNlink := 1
    iUid := uid
    iGid := gid
    due := true }

/-- `maknode` as far as the inode, with the number of the device that `mknod` puts into it. -/
def makeInode (v : Volume) (mode : ℕ) (uid gid dev : ℤ) (fuel : ℕ) : Option (Volume × Option ℕ) :=
  match ialloc v fuel with
  | none => none
  | some (u, none) => some (u, none)
  | some (u, some i) => some (u.replace ((u.inodeOf i).made mode uid gid dev), some i)

end Code

section Spec

/-- A call, with what its caller sees of it. -/
inductive Event
  | iget (i : ℕ)
  | iput (i : ℕ)
  | readi (i off count : ℕ) (bytes : List Byte) (err : Option Errno)
  | writei (i off : ℕ) (data rest : List Byte) (err : Option Errno)
  | itrunc (i : ℕ)
  | change (i mode : ℕ) (nlink uid gid : ℤ)
  | makeInode (r : Option ℕ) (mode : ℕ) (uid gid dev : ℤ)
  | update
  | iinit

/-- How many bytes there are to read. -/
def Object.rest (o : Object) (off count : ℕ) : ℕ := min count (o.size - off).toNat

def Object.read (o : Object) (off n : ℕ) : List Byte := (List.range n).map fun k ↦ o.bytes (off + k)

/-- A write can end after `m` bytes only where a block ends, and not beyond what the addresses of an inode reach. -/
structure Ends (off len m : ℕ) : Prop where
  le : m ≤ len
  aligned : m < len → m = 0 ∨ (off + m) % BSIZE = 0
  inside : m = 0 ∨ off + m ≤ LARGEST

/-- What a write does to a file. When space runs out, or the file would be too large, the first `m` bytes are written;
in the first case the next one would go into a block that the file does not have, in the second the size counts some
bytes that are not written. -/
inductive Object.Write (o : Object) (off : ℕ) (data : List Byte) : List Byte → Option Errno → Object → Prop
  | done (h : Ends off data.length data.length) :
      Write o off data [] none
        { o with
          size := if data = [] then o.size else max o.size (off + data.length : ℕ)
          bytes := put o.bytes off data }
  | nospace {m : ℕ} (h : Ends off data.length m) (hlt : m < data.length)
      (hhole : ∀ k, k / BSIZE = (off + m) / BSIZE → o.bytes k = 0) :
      Write o off data (data.drop m) (some .ENOSPC)
        { o with
          size := if m = 0 then o.size else max o.size (off + m : ℕ)
          bytes := put o.bytes off (data.take m) }
  | toobig {m : ℕ} (h : Ends off data.length m) (hlt : m < data.length) (hlarge : LARGEST ≤ off + m) :
      Write o off data (data.drop (m + portion (off + m) (data.length - m))) (some .EFBIG)
        { o with
          size := max o.size (off + (m + portion (off + m) (data.length - m)) : ℕ)
          bytes := put o.bytes off (data.take m) }

/-- A store of files. -/
inductive Spec (files : ℕ → Option Object) : Event → (ℕ → Option Object) → Prop
  | iget {i : ℕ} {o : Object} (h : files i = some o) : Spec files (.iget i) files
  | iput {i : ℕ} {o : Object} (h : files i = some o) (hnlink : 0 < o.nlink) : Spec files (.iput i) files
  | last {i : ℕ} {o : Object} (h : files i = some o) (hnlink : o.nlink ≤ 0) :
      Spec files (.iput i) (Function.update files i none)
  | readi {i off count : ℕ} {o : Object} (h : files i = some o) :
      Spec files
        (.readi i off count (o.read off (min (o.rest off count) (LARGEST - off)))
          (if o.rest off count ≤ LARGEST - off then none else some .EFBIG)) files
  | writei {i off : ℕ} {data rest : List Byte} {err : Option Errno} {o o' : Object} (h : files i = some o)
      (hwrite : o.Write off data rest err o') :
      Spec files (.writei i off data rest err) (Function.update files i (some o'))
  | itrunc {i : ℕ} {o : Object} (h : files i = some o) :
      Spec files (.itrunc i) (Function.update files i (some { o with size := 0, bytes := fun _ ↦ 0 }))
  | change {i mode : ℕ} {nlink uid gid : ℤ} {o : Object} (h : files i = some o)
      (hkind : mode &&& IFMT = o.mode &&& IFMT) :
      Spec files (.change i mode nlink uid gid) (Function.update files i (some { o with mode, nlink, uid, gid }))
  | makeInode {i mode : ℕ} {uid gid dev : ℤ} (h : files i = none) (hi : 0 < i ∧ i < 65536) :
      Spec files (.makeInode (some i) mode uid gid dev)
        (Function.update files i (some ⟨fileMode mode, 1, uid, gid, 0, fun _ ↦ 0, dev⟩))
  | full {mode : ℕ} {uid gid dev : ℤ} : Spec files (.makeInode none mode uid gid dev) files
  | update : Spec files .update files
  | iinit : Spec files .iinit files

end Spec

section Calls

/-- The calls on a mounted file system, with what their callers see to. A file is in core while it is in use, and an
inode in core that has changed is due to go to the disk. -/
inductive Act (v : Volume) : Event → Volume → Prop
  | iget {i : ℕ} {ip : Inode} (hi : v.Has i) (hmode : v.diMode i ≠ 0) (hnone : ∀ p ∈ v.inode, p.iNumber ≠ i)
      (h : iget v i = some ip) : Act v (.iget i) (v.replace ip)
  | iput {ip : Inode} (hip : ip ∈ v.inode)
      (hlast : ip.iNlink ≤ 0 → ip.iNumber ≠ ROOTINO ∧
        (sNinode v.fp < NICINOD ∨ sFmod v.fp ≠ 0 ∨ ip.blocks v.view ≠ [])) :
      Act v (.iput ip.iNumber) (iput v ip)
  | readi {ip : Inode} {off count : ℕ} {bytes : List Byte} {err : Option Errno} (hip : ip ∈ v.inode)
      (hblocks : ip.HasBlocks) (h : readi v ip.toFile off count = (bytes, err)) :
      Act v (.readi ip.iNumber off count bytes err) v
  | writei {ip : Inode} {f : File} {off : ℕ} {data rest : List Byte} {err : Option Errno} {w : Volume} {due : Bool}
      (hip : ip ∈ v.inode) (hblocks : ip.HasBlocks) (hoff : off + data.length < 2147483648)
      (h : writei v ip.toFile off data = (w, f, rest, err)) (hdue : due = false → f = ip.toFile ∧ ip.due = false) :
      Act v (.writei ip.iNumber off data rest err) (w.replace { ip with toFile := f, due })
  | itrunc {ip : Inode} {f : File} {w : Volume} (hip : ip ∈ v.inode) (hblocks : ip.HasBlocks)
      (h : itrunc v ip.toFile = (w, f)) : Act v (.itrunc ip.iNumber) (w.replace { ip with toFile := f, due := true })
  | change {ip : Inode} {mode : ℕ} {nlink uid gid : ℤ} (hip : ip ∈ v.inode) (hkind : mode &&& IFMT = ip.iMode &&& IFMT)
      (hmode : mode ≠ 0) (hfits : ({ ip with iMode := mode, iNlink := nlink, iUid := uid, iGid := gid } : Inode).Fits) :
      Act v (.change ip.iNumber mode nlink uid gid)
        (v.replace { ip with iMode := mode, iNlink := nlink, iUid := uid, iGid := gid, due := true })
  | makeInode {mode fuel : ℕ} {uid gid dev : ℤ} {r : Option ℕ} {w : Volume} (hmode : mode < 65536)
      (huid : -32768 ≤ uid ∧ uid < 32768) (hgid : -32768 ≤ gid ∧ gid < 32768) (hdev : 0 ≤ dev ∧ dev < 16777216)
      (hplain : (fileMode mode &&& IFMT : ℕ) = IFREG ∨ (fileMode mode &&& IFMT : ℕ) = IFDIR → dev = 0)
      (h : makeInode v mode uid gid dev fuel = some (w, r)) : Act v (.makeInode r mode uid gid dev) w
  | update (time : ℤ) : Act v .update (update v time)
  | iinit (time : ℤ) (stale : Buffer) : Act v .iinit (iinit stale (update v time).disk)

end Calls

section Calls

variable {isize fsize : ℤ} {nobody owned : List ℤ} {s t : State} {v w u : Volume} {ip : Inode} {f : File} {e : Event}
  {i off m mode : ℕ} {uid gid dev : ℤ} {data rest : List Byte} {err : Option Errno} {view : ℤ → Buffer}

theorem object_of_blocks (h : ip.HasBlocks) (view : ℤ → Buffer) :
    ip.object view = ⟨ip.iMode, ip.iNlink, ip.iUid, ip.iGid, ip.iSize, fileByte view ip.toFile, 0⟩ := by
  rw [Inode.object, if_pos h, if_pos h]

theorem write_nil (o : Object) (off : ℕ) : o.Write off [] [] none o := by
  have hdone := @Object.Write.done o off [] ⟨le_rfl, fun hlt ↦ absurd hlt (lt_irrefl _), .inl rfl⟩
  rw [if_pos rfl, put_nil] at hdone
  exact hdone

/-- What `writei` does to the file. -/
theorem Wrote.object (h : Wrote isize fsize nobody s ip.toFile off data t f rest err m) (hdata : data ≠ [])
    (hblocks : ip.HasBlocks) :
    (ip.object s.v.view).Write off data rest err (({ ip with toFile := f } : Inode).object t.v.view) := by
  have hblocks' : ({ ip with toFile := f } : Inode).HasBlocks := hblocks
  rw [object_of_blocks hblocks, object_of_blocks hblocks']
  dsimp only
  rw [h.bytes]
  have hends : Ends off data.length m := ⟨h.le, h.aligned, h.inside⟩
  cases err with
  | none =>
    obtain ⟨rfl, rfl, hsize⟩ := h.done rfl
    rw [hsize, List.take_length]
    have hdone :=
      @Object.Write.done ⟨ip.iMode, ip.iNlink, ip.iUid, ip.iGid, ip.iSize, fileByte s.v.view ip.toFile, 0⟩ off data hends
    rw [if_neg hdata] at hdone
    exact hdone
  | some e =>
    cases e with
    | ENOSPC =>
      obtain ⟨rfl, hne, hsize, hhole, -⟩ := h.nospace rfl
      rw [hsize]
      refine .nospace hends (lt_of_not_ge fun hle ↦ hne ?_) hhole
      exact List.drop_eq_nil_iff.mpr hle
    | EFBIG =>
      obtain ⟨hlarge, hlt, rfl, hsize⟩ := h.toobig rfl
      rw [hsize]
      exact .toobig hends hlt hlarge

theorem Held.refiled_self (h : Held isize fsize nobody s) (hip : ip ∈ s.v.inode) (hblocks : ip.HasBlocks) :
    Refiled s s ip ip.toFile := by
  obtain ⟨-, hnodup, howned⟩ := h.file hip hblocks
  have hfits := h.table.fits ip hip
  refine ⟨.start, hnodup, howned, fun c hc _ ↦ hc, fun c ↦ ?_, fun _ _ _ ↦ rfl, hfits.size, hfits.beyond⟩
  by_cases hc : c ∈ fileTree s.v.view ip.toFile
  · exact iff_of_true (howned c hc) (.inl hc)
  · rw [or_iff_right hc]
    exact (and_iff_left hc).symm

theorem Held.writei {due : Bool} (h : Held isize fsize nobody s) (hip : ip ∈ s.v.inode) (hblocks : ip.HasBlocks)
    (hoff : off + data.length < 2147483648) (hrun : writei s.v ip.toFile off data = (w, f, rest, err))
    (hdue : due = false → f = ip.toFile ∧ ip.due = false) :
    ∃ owned o, Held isize fsize nobody ⟨w.replace { ip with toFile := f, due }, owned⟩ ∧
      (ip.object s.v.view).Write off data rest err o ∧
      (w.replace { ip with toFile := f, due }).object = Function.update s.v.object ip.iNumber (some o) ∧
      (err = some .ENOSPC → ∀ b, isize ≤ b → b < fsize → b ∈ owned ∨ b ∈ nobody) := by
  obtain ⟨-, hnodup, howned⟩ := h.file hip hblocks
  by_cases hdata : data = []
  · have hnil : Filsys.writei s.v ip.toFile off data = (s.v, ip.toFile, [], none) := if_pos hdata
    rw [hnil] at hrun
    cases hrun
    obtain ⟨hheld, hobject⟩ := h.refile hip hblocks (h.refiled_self hip hblocks) hdue
    rw [hdata]
    exact ⟨s.owned, _, hheld, write_nil _ off, hobject, fun herr ↦ absurd herr.symm (Option.some_ne_none _)⟩
  · obtain ⟨t, f', rest', err', m, hsome, hwrote⟩ :=
      (writei_spec h.kept hnodup howned off data).resolve_left fun hnil ↦ hdata hnil.1
    rw [hsome] at hrun
    cases hrun
    obtain ⟨hheld, hobject⟩ := h.refile hip hblocks (hwrote.refiled h hip hblocks hoff) hdue
    exact ⟨t.owned, _, hheld, hwrote.object hdata hblocks, hobject, fun herr ↦ (hwrote.nospace herr).2.2.2.2⟩

theorem fileMode_spec (h : mode < 65536) : fileMode mode ≠ 0 ∧ fileMode mode < 65536 := by
  unfold fileMode
  split
  · refine ⟨fun hzero ↦ ?_, @Nat.or_lt_two_pow mode 32768 16 h (by decide)⟩
    exact absurd (Nat.or_eq_zero_iff.mp hzero).2 (by decide)
  · rename_i hne
    refine ⟨fun hzero ↦ hne ?_, h⟩
    rw [hzero, Nat.zero_and]

theorem made_object (hsize : ip.iSize = 0) (haddr : ip.iAddr = fun _ ↦ 0)
    (hplain : (ip.made mode uid gid dev).HasBlocks → dev = 0) (view : ℤ → Buffer) :
    (ip.made mode uid gid dev).object view = ⟨fileMode mode, 1, uid, gid, 0, fun _ ↦ 0, dev⟩ := by
  have hfirst : (ip.made mode uid gid dev).iAddr 0 = dev := by
    change Function.update ip.iAddr 0 dev 0 = dev
    exact Function.update_self ..
  have hnew : (ip.made mode uid gid dev).iSize = 0 := hsize
  rw [Inode.object, hfirst, hnew]
  by_cases hblocks : (ip.made mode uid gid dev).HasBlocks
  · have hfile : (ip.made mode uid gid dev).toFile = ⟨ip.iSize, fun _ ↦ 0⟩ := by
      have hupdate : Function.update ip.iAddr 0 dev = fun _ ↦ 0 := by
        rw [hplain hblocks, haddr]
        exact Function.update_eq_self 0 _
      exact congrArg (File.mk ip.iSize) hupdate
    rw [if_pos hblocks, if_pos hblocks, hfile, fileByte_empty, hplain hblocks]
    rfl
  · rw [if_neg hblocks, if_neg hblocks]
    rfl

/-- The number of an inode fits the entry of a directory. -/
theorem Held.number_lt (h : Held isize fsize nobody s) (hi : s.v.Has i) : 0 < i ∧ i < 65536 := by
  have hisize : sIsize s.v.fp = isize := h.kept.sound.accounts.isize_eq
  obtain ⟨hpos, hle⟩ := hi
  have hsmall := h.small.1
  rw [Volume.ninodes, hisize, NIPB, SUPERB] at hle
  omega

/-- A new file. -/
theorem Held.made {fuel : ℕ} (h : Held isize fsize nobody ⟨v, owned⟩) (hmode : mode < 65536)
    (huid : -32768 ≤ uid ∧ uid < 32768) (hgid : -32768 ≤ gid ∧ gid < 32768) (hdev : 0 ≤ dev ∧ dev < 16777216)
    (hplain : (fileMode mode &&& IFMT : ℕ) = IFREG ∨ (fileMode mode &&& IFMT : ℕ) = IFDIR → dev = 0)
    (hrun : ialloc v fuel = some (u, some i)) :
    Held isize fsize nobody ⟨u.replace ((u.inodeOf i).made mode uid gid dev), owned⟩ ∧ v.object i = none ∧
      (0 < i ∧ i < 65536) ∧
      (u.replace ((u.inodeOf i).made mode uid gid dev)).object =
        Function.update v.object i (some ⟨fileMode mode, 1, uid, gid, 0, fun _ ↦ 0, dev⟩) := by
  obtain ⟨hspec, -⟩ := h.ialloced hrun
  obtain ⟨hi, hsame⟩ : v.Has i ∧ u.inodeOf i = (v.dinode i).clear := by
    obtain ⟨ino, hr, -, hspare, hinode, -⟩ | ⟨hr, -⟩ := hspec.result
    · obtain rfl : i = ino := Option.some.inj hr
      refine ⟨hspare.1, ?_⟩
      have hfind : u.inode.find? (fun p ↦ p.iNumber = i) = some (v.dinode i).clear := by
        rw [hinode]
        exact List.find?_cons_of_pos (decide_eq_true rfl)
      rw [Volume.inodeOf, hfind]
      rfl
    · exact absurd hr (Option.some_ne_none i)
  have hfits := fits_iexpand i (v.view (itod i)) (64 * itoo i)
  have haddr (k : ℕ) (hk : k ≠ 0) : ((v.dinode i).clear.made mode uid gid dev).iAddr k = 0 := Function.update_of_ne hk ..
  have hfits' : ((v.dinode i).clear.made mode uid gid dev).Fits := by
    refine ⟨(fileMode_spec hmode).2, ⟨show (-32768 : ℤ) ≤ 1 by decide, show (1 : ℤ) < 32768 by decide⟩, huid, hgid, hfits.size,
      fun k _ ↦ ?_, fun k hk ↦ haddr k (Nat.ne_of_gt (lt_of_lt_of_le (by decide) hk))⟩
    by_cases hk : k = 0
    · rw [hk]
      exact hdev
    · rw [haddr k hk]
      decide
  have hzero (hblocks : ((v.dinode i).clear.made mode uid gid dev).HasBlocks) :
      ((v.dinode i).clear.made mode uid gid dev).iAddr = fun _ ↦ 0 := by
    change Function.update (fun _ ↦ (0 : ℤ)) 0 dev = fun _ ↦ 0
    rw [hplain hblocks]
    exact Function.update_eq_self 0 _
  rw [hsame]
  obtain ⟨hheld, hnone, hempty, hobject⟩ :=
    @Held.maknode _ _ _ _ _ _ ((v.dinode i).clear.made mode uid gid dev) _ _ h hrun rfl rfl (fileMode_spec hmode).1 hfits' rfl hzero
  have hnew : ((v.dinode i).clear.made mode uid gid dev).object v.view = ⟨fileMode mode, 1, uid, gid, 0, fun _ ↦ 0, dev⟩ :=
    made_object (show (v.dinode i).clear.iSize = 0 from hempty) rfl hplain v.view
  rw [hnew] at hobject
  exact ⟨hheld, hnone, h.number_lt hi, hobject⟩

theorem Held.itrunc (h : Held isize fsize nobody ⟨v, owned⟩) (hip : ip ∈ v.inode) (hblocks : ip.HasBlocks)
    (hrun : itrunc v ip.toFile = (w, f)) :
    ∃ owned', Held isize fsize nobody ⟨w.replace { ip with toFile := f, due := true }, owned'⟩ ∧
      (w.replace { ip with toFile := f, due := true }).object =
        Function.update v.object ip.iNumber (some { ip.object v.view with size := 0, bytes := fun _ ↦ 0 }) := by
  obtain ⟨hrefiled, hempty⟩ := h.truncated hip hblocks hrun
  obtain ⟨hheld, hobject⟩ := h.refile hip hblocks hrefiled fun hdue : true = false ↦ absurd hdue.symm Bool.false_ne_true
  have hblocks' : ({ ip with toFile := f } : Inode).HasBlocks := hblocks
  have hnew : ({ ip with toFile := f } : Inode).object w.view = { ip.object v.view with size := 0, bytes := fun _ ↦ 0 } := by
    rw [object_of_blocks hblocks, object_of_blocks hblocks', hempty, fileByte_empty]
  refine ⟨_, hheld, hobject.trans ?_⟩
  exact congrArg (fun o ↦ Function.update v.object ip.iNumber (some o)) hnew

theorem object_change {ip' : Inode} (hfile : ip'.toFile = ip.toFile) (hkind : ip'.iMode &&& IFMT = ip.iMode &&& IFMT)
    (view : ℤ → Buffer) :
    ip'.object view =
      { ip.object view with mode := ip'.iMode, nlink := ip'.iNlink, uid := ip'.iUid, gid := ip'.iGid } := by
  have hhas : ip'.HasBlocks ↔ ip.HasBlocks := by
    unfold Inode.HasBlocks
    rw [hkind]
  unfold Inode.object
  rw [hfile]
  simp only [hhas]

/-- Every call keeps the blocks apart, and does to the files what a store of files does. -/
theorem Held.act (h : Held isize fsize nobody ⟨v, owned⟩) (hact : Act v e w) :
    (∃ owned', Held isize fsize nobody ⟨w, owned'⟩) ∧ Spec v.object e w.object := by
  cases hact with
  | @iget i ip hi hmode hnone higet =>
    have hcore := find_none hnone
    rw [Filsys.iget, hcore] at higet
    dsimp only at higet
    split at higet
    · cases higet
      obtain ⟨hheld, hobject⟩ := h.iget hi hmode hnone
      rw [hobject]
      have hfile := inodeOf_of_not_mem hnone
      exact ⟨⟨owned, hheld⟩, .iget (object_of_mode hi (by rw [hfile]; exact hmode))⟩
    · exact absurd higet.symm (Option.some_ne_none ip)
  | @iput ip hip hlast =>
    have hfile := h.object_of_mem hip
    by_cases hnlink : ip.iNlink ≤ 0
    · obtain ⟨hroot, hroom⟩ := hlast hnlink
      obtain ⟨hheld, hobject⟩ := h.iput hip hroot hroom hnlink
      rw [hobject]
      exact ⟨⟨_, hheld⟩, .last hfile hnlink⟩
    · have hsame : Filsys.iput v ip = Filsys.iputLast v ip := if_neg hnlink
      obtain ⟨hheld, hobject⟩ := h.iputLast hip
      rw [hsame, hobject]
      exact ⟨⟨owned, hheld⟩, .iput hfile (not_le.mp hnlink)⟩
  | @readi ip off count bytes err hip hblocks hrun =>
    have hfile := h.object_of_mem hip
    rw [object_of_blocks hblocks] at hfile
    rw [readi_spec] at hrun
    cases hrun
    exact ⟨⟨owned, h⟩, .readi hfile⟩
  | @writei ip f off data rest err w due hip hblocks hoff hrun hdue =>
    obtain ⟨owned', o, hheld, hwrite, hobject, -⟩ := h.writei hip hblocks hoff hrun hdue
    rw [hobject]
    exact ⟨⟨owned', hheld⟩, .writei (h.object_of_mem hip) hwrite⟩
  | @itrunc ip f w hip hblocks hrun =>
    obtain ⟨owned', hheld, hobject⟩ := h.itrunc hip hblocks hrun
    rw [hobject]
    exact ⟨⟨owned', hheld⟩, .itrunc (h.object_of_mem hip)⟩
  | @change ip mode nlink uid gid hip hkind hmode hfits =>
    obtain ⟨ip', hip'⟩ : ∃ ip' : Inode, ip' =
        { ip with iMode := mode, iNlink := nlink, iUid := uid, iGid := gid, due := true } := ⟨_, rfl⟩
    have hfits' : ip'.Fits := by
      rw [hip']
      exact ⟨hfits.mode, hfits.nlink, hfits.uid, hfits.gid, hfits.size, hfits.addr, hfits.beyond⟩
    have hfile : ip'.toFile = ip.toFile := by rw [hip']
    have hkind' : ip'.iMode &&& IFMT = ip.iMode &&& IFMT := by
      rw [hip']
      exact hkind
    have hmode' : ip'.iMode ≠ 0 := by
      rw [hip']
      exact hmode
    obtain ⟨hheld, hobject⟩ := h.change hip (by rw [hip']) hfile hkind' hmode' hfits' (by rw [hip'])
    have hnew : ip'.object v.view = { ip.object v.view with mode, nlink, uid, gid } := by
      rw [object_change hfile hkind' v.view, hip']
    rw [← hip', hobject, hnew]
    exact ⟨⟨owned, hheld⟩, .change (h.object_of_mem hip) hkind⟩
  | @makeInode mode fuel uid gid dev r w hmode huid hgid hdev hplain hrun =>
    unfold Filsys.makeInode at hrun
    cases hialloc : ialloc v fuel with
    | none =>
      rw [hialloc] at hrun
      exact absurd hrun.symm (Option.some_ne_none _)
    | some result =>
      obtain ⟨u, k⟩ := result
      rw [hialloc] at hrun
      cases k with
      | none =>
        cases hrun
        obtain ⟨hheld, hobject⟩ := h.full hialloc
        rw [hobject]
        exact ⟨⟨owned, hheld⟩, .full⟩
      | some i =>
        cases hrun
        obtain ⟨hheld, hnone, hi, hobject⟩ := h.made hmode huid hgid hdev hplain hialloc
        rw [hobject]
        exact ⟨⟨owned, hheld⟩, .makeInode hnone hi⟩
  | update time =>
    obtain ⟨hheld, hobject⟩ := h.update time
    rw [hobject]
    exact ⟨⟨owned, hheld⟩, .update⟩
  | iinit time stale =>
    obtain ⟨hheld, hobject⟩ := h.iinit time stale
    rw [hobject]
    exact ⟨⟨owned, hheld⟩, .iinit⟩

end Calls

section FromMkfs

variable {fssize isize : ℕ} {flparams : Flparams} {uid gid time root : ℤ} {disk : ℤ → Buffer} {v w u : Volume}
  {es : List Event} {i off : ℕ} {data rest : List Byte}

/-- The new file system holds its first two files. -/
theorem held_of_mkfs (h : Accepted fssize isize) (hsmall : defaultIsize fssize isize < V7FS_MAX_ITABLE_SIZE)
    (huid : -32768 ≤ uid ∧ uid < 32768) (hgid : -32768 ≤ gid ∧ gid < 32768)
    (hmkfs : mkfs fssize isize flparams uid gid time disk = some (v, root)) (stale : Buffer) :
    Held (defaultIsize fssize isize + 2) fssize (lost fssize flparams.fn) ⟨iinit stale v.disk, [root]⟩ ∧
      (iinit stale v.disk).object = newFiles uid gid := by
  obtain ⟨u, root', hmade, hapart, hsound, hunmounted⟩ := mkfs_sound h flparams uid gid time disk
  rw [hmkfs] at hmade
  obtain ⟨rfl, rfl⟩ := Prod.mk.inj (Option.some.inj hmade)
  have hmax : fssize ≤ 16777215 := h.1.2
  obtain ⟨hheld, hobject⟩ := hunmounted.held h.2.1 hsmall (by omega) hsound hapart huid hgid
  obtain ⟨hheld', hobject'⟩ := hheld.iinit time stale
  exact ⟨hheld', hobject'.trans hobject⟩

/-- Every run keeps what the files hold. -/
theorem held_of_run (h : Accepted fssize isize) (hsmall : defaultIsize fssize isize < V7FS_MAX_ITABLE_SIZE)
    (huid : -32768 ≤ uid ∧ uid < 32768) (hgid : -32768 ≤ gid ∧ gid < 32768)
    (hmkfs : mkfs fssize isize flparams uid gid time disk = some (v, root)) (stale : Buffer)
    (hruns : Runs Act (iinit stale v.disk) es w) :
    ∃ owned, Held (defaultIsize fssize isize + 2) fssize (lost fssize flparams.fn) ⟨w, owned⟩ := by
  have hkeeps (u : Volume) (e : Event) (w : Volume)
      (hheld : ∃ owned, Held (defaultIsize fssize isize + 2) fssize (lost fssize flparams.fn) ⟨u, owned⟩) (hact : Act u e w) :
      ∃ owned, Held (defaultIsize fssize isize + 2) fssize (lost fssize flparams.fn) ⟨w, owned⟩ := by
    obtain ⟨owned, hheld⟩ := hheld
    exact (hheld.act hact).1
  exact hruns.keeps ⟨[root], (held_of_mkfs h hsmall huid hgid hmkfs stale).1⟩ hkeeps

end FromMkfs

end S8000.Filsys
