import S8000.Filsys.Bmap

namespace S8000.Filsys

open Foundation Foundation.Bytes Foundation.Buffer

section Code

inductive Errno
  | EFBIG
  | ENOSPC
deriving DecidableEq

variable (v : Volume) (ip : File)

/-- The buffer that `readi` copies from; `none` when the file is too large. -/
def readBlock (bn : ℕ) : Option Buffer :=
  match (bmap .read v ip bn).2.2 with
  | .error => none
  | .none => some cleared
  | .block nb => some (v.view nb)

/-- The loop of `readi`, which ends with the count at the latest. -/
def readiLoop : ℕ → ℕ → ℕ → List Byte × Option Errno
  | 0, _, _ => ([], none)
  | fuel + 1, off, count =>
    let on := off % BSIZE
    let diff := ip.iSize - off
    if diff ≤ 0 then ([], none)
    else
      let n := if diff < min (BSIZE - on) count then diff.toNat else min (BSIZE - on) count
      match readBlock v ip (off / BSIZE) with
      | none => ([], some .EFBIG)
      | some bp =>
        let (bytes, err) := if count - n ≠ 0 ∧ 0 < n then readiLoop fuel (off + n) (count - n) else ([], none)
        (bp.get on n ++ bytes, err)

def readi (off count : ℕ) : List Byte × Option Errno := if count = 0 then ([], none) else readiLoop v ip count off count

def File.extend (off : ℕ) : File := if ip.iSize < off then { ip with iSize := off } else ip

/-- The loop of `writei`. What is left of the data comes with the error. -/
def writeiLoop : ℕ → Volume → File → ℕ → List Byte → Volume × File × List Byte × Option Errno
  | 0, v, ip, _, data => (v, ip, data, none)
  | fuel + 1, v, ip, off, data =>
    let on := off % BSIZE
    let n := min (BSIZE - on) data.length
    match bmap .write v ip (off / BSIZE) with
    | (w, ip, .none) => (w, ip, data, some .ENOSPC)
    | (w, ip, .error) => (w, ip.extend (off + n), data.drop n, some .EFBIG)
    | (w, ip, .block nb) =>
      let u := bdwrite w nb (put (w.view nb) on (data.take n))
      if data.drop n = [] then (u, ip.extend (off + n), [], none)
      else writeiLoop fuel u (ip.extend (off + n)) (off + n) (data.drop n)

def writei (off : ℕ) (data : List Byte) : Volume × File × List Byte × Option Errno :=
  if data = [] then (v, ip, [], none) else writeiLoop data.length v ip off data

end Code

section Bytes

variable {view : ℤ → Buffer} {v : Volume} {ip : File} {off count fuel : ℕ}

/-- A byte of a file. -/
def fileByte (view : ℤ → Buffer) (ip : File) (off : ℕ) : Byte := blockContents view ip (off / BSIZE) (off % BSIZE)

/-- The bytes that the addresses of an inode reach. -/
def LARGEST : ℕ := 2113674 * BSIZE

def fileBytes (view : ℤ → Buffer) (ip : File) (off n : ℕ) : List Byte :=
  (List.range n).map fun k ↦ fileByte view ip (off + k)

theorem slot_isSome_iff (off : ℕ) : slot (off / BSIZE) = none ↔ LARGEST ≤ off := by
  rw [slot_eq, LARGEST, BSIZE]
  split_ifs <;> simp only [false_iff, true_iff] <;> omega

theorem length_fileBytes (view : ℤ → Buffer) (ip : File) (off n : ℕ) : (fileBytes view ip off n).length = n := by
  rw [fileBytes, List.length_map, List.length_range]

theorem fileBytes_add (view : ℤ → Buffer) (ip : File) (off n m : ℕ) :
    fileBytes view ip off (n + m) = fileBytes view ip off n ++ fileBytes view ip (off + n) m := by
  rw [fileBytes, List.range_add, List.map_append, List.map_map]
  refine congrArg (fileBytes view ip off n ++ ·) (List.map_congr_left fun k _ ↦ ?_)
  rw [Function.comp_apply, Nat.add_assoc]

/-- Bytes of one block. -/
theorem get_blockContents (n : ℕ) (h : off % BSIZE + n ≤ BSIZE) :
    (blockContents view ip (off / BSIZE)).get (off % BSIZE) n = fileBytes view ip off n := by
  refine List.map_congr_left fun k hk ↦ ?_
  have hlt := List.mem_range.mp hk
  have hsplit := Nat.div_add_mod off BSIZE
  rw [BSIZE] at h hsplit ⊢
  have hdiv : (off + k) / 512 = off / 512 := by omega
  have hmod : (off + k) % 512 = off % 512 + k := by omega
  rw [fileByte, BSIZE, hdiv, hmod]

end Bytes

section Readi

variable {v : Volume} {ip : File} {off count fuel bn : ℕ}

theorem readBlock_eq (hslot : slot bn ≠ none) (v : Volume) (ip : File) :
    readBlock v ip bn = some (blockContents v.view ip bn) := by
  obtain ⟨⟨i, sh, rest⟩, hslot⟩ := Option.ne_none_iff_exists'.mp hslot
  rw [readBlock, bmap_read hslot v ip, blockContents]
  split_ifs <;> rfl

theorem readBlock_of_large (hslot : slot bn = none) (v : Volume) (ip : File) : readBlock v ip bn = none := by
  rw [readBlock, bmap_of_large hslot]

/-- The bytes that a file has from an offset on. -/
def File.rest (ip : File) (off : ℕ) : ℕ := (ip.iSize - off).toNat

/-- `readi` by induction on its rounds. -/
theorem readiLoop_spec (hfuel : count ≤ fuel) (hcount : 0 < count) :
    readiLoop v ip fuel off count =
      (fileBytes v.view ip off (min (min count (ip.rest off)) (LARGEST - off)),
        if min count (ip.rest off) ≤ LARGEST - off then none else some .EFBIG) := by
  induction fuel generalizing off count with
  | zero => omega
  | succ fuel ih =>
    rw [readiLoop]
    dsimp only
    by_cases hdiff : ip.iSize - off ≤ 0
    · have hrest : ip.rest off = 0 := Int.toNat_eq_zero.mpr hdiff
      rw [if_pos hdiff, hrest, Nat.min_zero, Nat.zero_min, if_pos (Nat.zero_le _)]
      rfl
    · rw [if_neg hdiff]
      have hrest : (ip.rest off : ℤ) = ip.iSize - off := Int.toNat_of_nonneg (by omega)
      have hblock := Nat.mod_lt off (show 0 < BSIZE by decide)
      obtain ⟨n, hn, hpos, hle, hin⟩ : ∃ n, (if ip.iSize - off < min (BSIZE - off % BSIZE) count then
          (ip.iSize - off).toNat else min (BSIZE - off % BSIZE) count) = n ∧ 0 < n ∧ n ≤ min count (ip.rest off) ∧
          off % BSIZE + n ≤ BSIZE := by
        refine ⟨_, rfl, ?_⟩
        have hsame : (ip.iSize - off).toNat = ip.rest off := rfl
        rw [hsame]
        split <;> omega
      rw [hn]
      by_cases hslot : slot (off / BSIZE) = none
      · have hlarge := (slot_isSome_iff off).mp hslot
        have hmore : ¬ min count (ip.rest off) ≤ 0 := by omega
        rw [readBlock_of_large hslot, Nat.sub_eq_zero_of_le hlarge, Nat.min_zero, if_neg hmore]
        rfl
      · have hsmall : ¬ LARGEST ≤ off := fun hlarge ↦ hslot ((slot_isSome_iff off).mpr hlarge)
        have hend : n ≤ LARGEST - off := by
          rw [LARGEST, BSIZE] at *
          omega
        rw [readBlock_eq hslot v ip]
        dsimp only
        rw [get_blockContents n hin]
        by_cases hmore : count - n ≠ 0 ∧ 0 < n
        · have hold : ip.rest off = (ip.iSize - off).toNat := rfl
          have hnew : ip.rest (off + n) = (ip.iSize - (off + n : ℕ)).toNat := rfl
          have hshift : ip.rest (off + n) = ip.rest off - n := by
            push_cast at hnew
            omega
          have hsum : n + min (min (count - n) (ip.rest off - n)) (LARGEST - (off + n)) =
              min (min count (ip.rest off)) (LARGEST - off) := by omega
          rw [if_pos hmore, ih (by omega) (by omega), hshift]
          dsimp only
          rw [← fileBytes_add, hsum]
          refine congrArg (Prod.mk _) (if_congr ?_ rfl rfl)
          omega
        · rw [if_neg hmore]
          have hall : min count (ip.rest off) = n := by omega
          rw [hall, Nat.min_eq_left hend, if_pos hend]
          dsimp only
          rw [List.append_nil]

/-- `readi` gives the bytes of the file up to its end. -/
theorem readi_spec (v : Volume) (ip : File) (off count : ℕ) :
    readi v ip off count =
      (fileBytes v.view ip off (min (min count (ip.rest off)) (LARGEST - off)),
        if min count (ip.rest off) ≤ LARGEST - off then none else some .EFBIG) := by
  unfold readi
  by_cases hcount : count = 0
  · rw [if_pos hcount, hcount, Nat.zero_min, Nat.zero_min, if_pos (Nat.zero_le _)]
    rfl
  · rw [if_neg hcount, readiLoop_spec le_rfl (Nat.pos_of_ne_zero hcount)]

end Readi

section Writei

variable {isize fsize : ℤ} {nobody : List ℤ} {s t : State} {v w : Volume} {ip ip' : File} {off fuel n m : ℕ}
  {data rest : List Byte} {err : Option Errno}

/-- What one round of `writei` does to the block. -/
theorem fileByte_put {view view' : ℤ → Buffer} {bp : Buffer} (hn : off % BSIZE + data.length ≤ BSIZE)
    (hold : blockContents view ip (off / BSIZE) = bp)
    (hnew : ∀ bn, blockContents view' ip' bn =
      if bn = off / BSIZE then put bp (off % BSIZE) data else blockContents view ip bn) :
    fileByte view' ip' = put (fileByte view ip) off data := by
  funext o
  have hsplit := Nat.div_add_mod off BSIZE
  have hsplit' := Nat.div_add_mod o BSIZE
  have hlt := Nat.mod_lt off (show 0 < BSIZE by decide)
  have hlt' := Nat.mod_lt o (show 0 < BSIZE by decide)
  unfold fileByte put
  dsimp only
  rw [hnew]
  rw [BSIZE] at *
  by_cases hblock : o / 512 = off / 512
  · rw [if_pos hblock, hblock, hold]
    unfold put
    by_cases hlow : off ≤ o
    · have hlow' : off % 512 ≤ o % 512 := by omega
      have hindex : o % 512 - off % 512 = o - off := by omega
      rw [if_pos hlow, if_pos hlow', hindex]
    · rw [if_neg hlow, if_neg (by omega)]
  · rw [if_neg hblock]
    split
    · rw [List.getElem?_eq_none (by omega), Option.getD_none]
    · rfl

theorem fileTree_extend (view : ℤ → Buffer) (ip : File) (off : ℕ) : fileTree view (ip.extend off) = fileTree view ip := by
  unfold File.extend
  split <;> rfl

theorem iAddr_extend (ip : File) (off : ℕ) : (ip.extend off).iAddr = ip.iAddr := by
  unfold File.extend
  split <;> rfl

theorem blockContents_extend (view : ℤ → Buffer) (ip : File) (off : ℕ) :
    blockContents view (ip.extend off) = blockContents view ip := by
  unfold File.extend
  split <;> rfl

theorem fileByte_extend (view : ℤ → Buffer) (ip : File) (off : ℕ) : fileByte view (ip.extend off) = fileByte view ip := by
  unfold File.extend
  split <;> rfl

theorem iSize_extend (ip : File) (off : ℕ) : (ip.extend off).iSize = max ip.iSize off := by
  unfold File.extend
  split
  · rename_i hlt
    exact (max_eq_right hlt.le).symm
  · rename_i hlt
    exact (max_eq_left (not_lt.mp hlt)).symm

/-- How much of a block a round writes. -/
def portion (off count : ℕ) : ℕ := min (BSIZE - off % BSIZE) count

theorem portion_pos {count : ℕ} (h : 0 < count) : 0 < portion off count := by
  have hlt := Nat.mod_lt off (show 0 < BSIZE by decide)
  exact lt_min (Nat.sub_pos_of_lt hlt) h

/-- What `writei` does: `m` bytes are written. After an error the rest is not, but a file that would be too large has
its size changed all the same. -/
structure Wrote (isize fsize : ℤ) (nobody : List ℤ) (s : State) (ip : File) (off : ℕ) (data : List Byte) (t : State)
    (ip' : File) (rest : List Byte) (err : Option Errno) (m : ℕ) : Prop where
  extends' : Extends s ip t ip'
  bytes : fileByte t.v.view ip' = put (fileByte s.v.view ip) off (data.take m)
  le : m ≤ data.length
  aligned : m < data.length → m = 0 ∨ (off + m) % BSIZE = 0
  inside : m = 0 ∨ off + m ≤ LARGEST
  done : err = none → m = data.length ∧ rest = [] ∧ ip'.iSize = max ip.iSize (off + m : ℕ)
  nospace : err = some .ENOSPC → rest = data.drop m ∧ rest ≠ [] ∧
    (ip'.iSize = if m = 0 then ip.iSize else max ip.iSize (off + m : ℕ)) ∧
    (∀ o, o / BSIZE = (off + m) / BSIZE → fileByte s.v.view ip o = 0) ∧
    ∀ b, isize ≤ b → b < fsize → b ∈ t.owned ∨ b ∈ nobody
  toobig : err = some .EFBIG → LARGEST ≤ off + m ∧ m < data.length ∧
    rest = data.drop (m + portion (off + m) (data.length - m)) ∧
    ip'.iSize = max ip.iSize (off + (m + portion (off + m) (data.length - m)) : ℕ)

/-- One round, and the rest. -/
theorem Wrote.cons {ip'' : File} {u : State} (hextends : Extends s ip t ip')
    (hbytes : fileByte t.v.view ip' = put (fileByte s.v.view ip) off (data.take n))
    (hsize : ip'.iSize = max ip.iSize (off + n : ℕ)) (hn : 0 < n) (hle : n ≤ data.length)
    (halign : (off + n) % BSIZE = 0) (hinside : off + n ≤ LARGEST)
    (h : Wrote isize fsize nobody t ip' (off + n) (data.drop n) u ip'' rest err m) :
    Wrote isize fsize nobody s ip off data u ip'' rest err (n + m) := by
  have hlen : (data.drop n).length = data.length - n := List.length_drop
  have hm := h.le
  have hmax (k : ℕ) : max ip'.iSize (off + n + k : ℕ) = max ip.iSize (off + (n + k) : ℕ) := by
    rw [hsize]
    push_cast
    omega
  refine ⟨hextends.trans h.extends', ?_, by omega, fun hlt ↦ .inr ?_, .inr ?_, fun herr ↦ ?_, fun herr ↦ ?_, fun herr ↦ ?_⟩
  · have htake : (data.take n).length = n := List.length_take_of_le hle
    have hjoin := put_append (fileByte s.v.view ip) off (data.take n) ((data.drop n).take m)
    rw [htake, ← List.take_add] at hjoin
    rw [h.bytes, hbytes, hjoin]
  · rw [← Nat.add_assoc]
    rcases h.aligned (by omega) with hzero | haligned
    · rw [hzero]
      exact halign
    · exact haligned
  · rcases h.inside with hzero | hend
    · rw [hzero]
      exact hinside
    · rw [← Nat.add_assoc]
      exact hend
  · obtain ⟨hall, hrest, hsize'⟩ := h.done herr
    exact ⟨by omega, hrest, hsize'.trans (hmax m)⟩
  · obtain ⟨hrest, hne, hsize', hhole, hfull⟩ := h.nospace herr
    have hpos : ¬ n + m = 0 := by omega
    refine ⟨by rw [hrest, List.drop_drop], hne, ?_, fun o ho ↦ ?_, hfull⟩
    · rw [if_neg hpos, hsize']
      split
      · rename_i hzero
        rw [hzero, hsize, Nat.add_zero]
      · exact hmax m
    · rw [← Nat.add_assoc] at ho
      have hbyte := hhole o ho
      have hlast : off + n ≤ o := by
        rw [BSIZE] at ho halign
        omega
      rw [hbytes] at hbyte
      unfold put at hbyte
      rw [if_pos (by omega), List.getElem?_eq_none (by rw [List.length_take]; omega), Option.getD_none] at hbyte
      exact hbyte
  · obtain ⟨hlarge, hlt, hrest, hsize'⟩ := h.toobig herr
    have hplace : off + n + m = off + (n + m) := Nat.add_assoc ..
    have hcount : data.length - n - m = data.length - (n + m) := Nat.sub_sub ..
    rw [hlen, hcount, hplace] at hrest hsize'
    refine ⟨by omega, by omega, ?_, ?_⟩
    · rw [hrest, List.drop_drop, Nat.add_assoc]
    · rw [hsize', hmax, Nat.add_assoc]

theorem writeiLoop_of_none (h : bmap .write v ip (off / BSIZE) = (w, ip', .none)) :
    writeiLoop (fuel + 1) v ip off data = (w, ip', data, some .ENOSPC) := by
  rw [writeiLoop, h]

theorem writeiLoop_of_error (h : bmap .write v ip (off / BSIZE) = (w, ip', .error)) :
    writeiLoop (fuel + 1) v ip off data =
      (w, ip'.extend (off + min (BSIZE - off % BSIZE) data.length), data.drop (min (BSIZE - off % BSIZE) data.length),
        some .EFBIG) := by
  rw [writeiLoop, h]

theorem writeiLoop_of_block {b : ℤ} (h : bmap .write v ip (off / BSIZE) = (w, ip', .block b))
    (hn : min (BSIZE - off % BSIZE) data.length = n) :
    writeiLoop (fuel + 1) v ip off data =
      if data.drop n = [] then
        (bdwrite w b (put (w.view b) (off % BSIZE) (data.take n)), ip'.extend (off + n), [], none)
      else
        writeiLoop fuel (bdwrite w b (put (w.view b) (off % BSIZE) (data.take n))) (ip'.extend (off + n)) (off + n)
          (data.drop n) := by
  rw [writeiLoop, h]
  dsimp only
  rw [hn]

/-- A round that finds its block. -/
theorem Placed.round {b : ℤ} {new : List ℤ} (hnodup : (fileTree s.v.view ip).Nodup)
    (howned : ∀ c ∈ fileTree s.v.view ip, c ∈ s.owned)
    (hplaced : Placed isize fsize nobody s ip (off / BSIZE) w ip' (some b) new) (hn : off % BSIZE + n ≤ BSIZE) :
    Extends s ip ⟨bdwrite w b (put (w.view b) (off % BSIZE) (data.take n)), new ++ s.owned⟩ (ip'.extend (off + n)) ∧
      fileByte (bdwrite w b (put (w.view b) (off % BSIZE) (data.take n))).view (ip'.extend (off + n)) =
        put (fileByte s.v.view ip) off (data.take n) ∧
      (ip'.extend (off + n)).iSize = max ip.iSize (off + n : ℕ) := by
  have hextends := hplaced.extends
  obtain ⟨hnodup', howned'⟩ := hextends.own hnodup howned
  obtain ⟨hblock, hne⟩ := hplaced.result b rfl
  have hview (c : ℤ) (hc : c ≠ b) :
      (bdwrite w b (put (w.view b) (off % BSIZE) (data.take n))).view c = w.view c := view_bdwrite_of_ne hc w _
  obtain ⟨htree, hcontents⟩ := written_contents hnodup' hblock hne hview
  have hmem : b ∈ fileTree w.view ip' := by
    cases hslot : slot (off / BSIZE) with
    | none =>
      rw [blockAt, hslot] at hblock
      exact absurd hblock.symm hne
    | some t =>
      obtain ⟨i, sh, rest⟩ := t
      obtain ⟨hlt, hsh, -⟩ := slot_spec hslot
      rw [blockAt_eq hslot] at hblock
      subst hblock
      exact mem_fileTree hlt (hsh ▸ leaf_mem hne)
  refine ⟨hextends.trans ⟨.write .start (howned' b hmem) _, ⟨[], rfl, List.nodup_nil, fun _ hc ↦ absurd hc List.not_mem_nil,
    ?_⟩, fun c _ hc ↦ hview c fun heq ↦ hc (heq ▸ hmem), fun k _ ↦ congrFun (iAddr_extend ip' _) k⟩, ?_, ?_⟩
  · rw [fileTree_extend, htree]
    exact .refl _
  · have htake : (data.take n).length ≤ n := List.length_take_le n data
    have hold : blockContents s.v.view ip (off / BSIZE) = w.view b := by
      rw [← hplaced.contents, blockContents, hblock, if_neg hne]
    rw [fileByte_extend]
    refine fileByte_put (by omega) hold fun bn ↦ ?_
    rw [hcontents bn, view_bdwrite_self, hplaced.contents]
  · rw [iSize_extend, hplaced.size]

/-- `writei` by induction on its rounds. -/
theorem writeiLoop_spec (hfuel : data.length ≤ fuel) (hdata : data ≠ []) (h : Kept isize fsize nobody s)
    (hnodup : (fileTree s.v.view ip).Nodup) (howned : ∀ c ∈ fileTree s.v.view ip, c ∈ s.owned) :
    ∃ t ip' rest err m, writeiLoop fuel s.v ip off data = (t.v, ip', rest, err) ∧
      Wrote isize fsize nobody s ip off data t ip' rest err m := by
  have hlength : 0 < data.length := List.length_pos_of_ne_nil hdata
  have hblock := Nat.mod_lt off (show 0 < BSIZE by decide)
  induction fuel generalizing s ip off data with
  | zero => omega
  | succ fuel ih =>
    obtain ⟨n, hn⟩ : ∃ n, min (BSIZE - off % BSIZE) data.length = n := ⟨_, rfl⟩
    cases hslot : slot (off / BSIZE) with
    | none =>
      have hlarge := (slot_isSome_iff off).mp hslot
      have hportion : 0 + portion (off + 0) (data.length - 0) = n := by
        rw [Nat.zero_add, Nat.add_zero, Nat.sub_zero]
        exact hn
      refine ⟨s, ip.extend (off + n), data.drop n, some .EFBIG, 0, ?_, ⟨?_, ?_, Nat.zero_le _, fun _ ↦ .inl rfl, .inl rfl,
        fun herr ↦ ?_, fun herr ↦ ?_, fun _ ↦ ⟨hlarge, hlength, by rw [hportion], by rw [iSize_extend, hportion]⟩⟩⟩
      · rw [writeiLoop_of_error (bmap_of_large hslot), hn]
      · refine ⟨.start, ⟨[], rfl, List.nodup_nil, fun _ hc ↦ absurd hc List.not_mem_nil, ?_⟩, fun _ _ _ ↦ rfl,
          fun k _ ↦ congrFun (iAddr_extend ip _) k⟩
        rw [fileTree_extend]
        exact .refl _
      · rw [fileByte_extend, List.take_zero, put_nil]
      · exact absurd herr (Option.some_ne_none _)
      · exact absurd (Option.some.inj herr) (by decide)
    | some slot' =>
      obtain ⟨i, sh, rest'⟩ := slot'
      obtain ⟨w, ip₁, r, new, hbmap, hplaced⟩ := bmap_write h hslot hnodup howned
      cases r with
      | none =>
        refine ⟨⟨w, new ++ s.owned⟩, ip₁, data, some .ENOSPC, 0, writeiLoop_of_none hbmap, ⟨hplaced.extends, ?_,
          Nat.zero_le _, fun _ ↦ .inl rfl, .inl rfl, fun herr ↦ ?_,
          fun _ ↦ ⟨rfl, hdata, ?_, fun o ho ↦ ?_, hplaced.full rfl⟩, fun herr ↦ ?_⟩⟩
        · rw [List.take_zero, put_nil]
          funext o
          rw [fileByte, fileByte, hplaced.contents]
        · exact absurd herr (Option.some_ne_none _)
        · rw [if_pos rfl, hplaced.size]
        · rw [fileByte, ho, Nat.add_zero, hplaced.hole rfl]
          rfl
        · exact absurd (Option.some.inj herr) (by decide)
      | some b =>
        have hsmall : off < LARGEST := by
          refine lt_of_not_ge fun hlarge ↦ ?_
          rw [(slot_isSome_iff off).mpr hlarge] at hslot
          exact absurd hslot.symm (Option.some_ne_none _)
        obtain ⟨hextends, hbytes, hsize⟩ := @Placed.round _ _ _ _ _ _ _ _ n data _ _ hnodup howned hplaced (by omega)
        rw [writeiLoop_of_block hbmap hn]
        by_cases hrest : data.drop n = []
        · have hall : data.length ≤ n := List.drop_eq_nil_iff.mp hrest
          rw [if_pos hrest]
          have hend : off + n ≤ LARGEST := by
            rw [LARGEST, BSIZE] at *
            omega
          refine ⟨⟨_, new ++ s.owned⟩, _, [], none, n, rfl, ⟨hextends, hbytes, by omega, fun hlt ↦ by omega,
            .inr hend, fun _ ↦ ⟨by omega, rfl, hsize⟩, fun herr ↦ ?_, fun herr ↦ ?_⟩⟩
          · exact absurd herr.symm (Option.some_ne_none _)
          · exact absurd herr.symm (Option.some_ne_none _)
        · rw [if_neg hrest]
          have hlen : (data.drop n).length = data.length - n := List.length_drop
          have hpos := List.length_pos_of_ne_nil hrest
          have halign : (off + n) % BSIZE = 0 := by
            rw [BSIZE] at *
            omega
          have hend : off + n ≤ LARGEST := by
            rw [LARGEST, BSIZE] at *
            omega
          obtain ⟨hnodup', howned'⟩ := hextends.own hnodup howned
          obtain ⟨t, ip'', rest, err, m, hrun, hwrote⟩ := @ih _ _ (off + n) (data.drop n) (by omega) hrest
            (h.moves hextends.run) hnodup' howned' hpos (Nat.mod_lt _ (by decide))
          exact ⟨t, ip'', rest, err, n + m, hrun, .cons hextends hbytes hsize (by omega) (by omega) halign hend hwrote⟩

/-- Every call of `writei`. -/
theorem writei_spec (h : Kept isize fsize nobody s) (hnodup : (fileTree s.v.view ip).Nodup)
    (howned : ∀ c ∈ fileTree s.v.view ip, c ∈ s.owned) (off : ℕ) (data : List Byte) :
    data = [] ∧ writei s.v ip off data = (s.v, ip, [], none) ∨
      ∃ t ip' rest err m, writei s.v ip off data = (t.v, ip', rest, err) ∧
        Wrote isize fsize nobody s ip off data t ip' rest err m := by
  unfold writei
  by_cases hdata : data = []
  · exact .inl ⟨hdata, if_pos hdata⟩
  · rw [if_neg hdata]
    exact .inr (writeiLoop_spec le_rfl hdata h hnodup howned)

end Writei

end S8000.Filsys
