import S8000.Filsys.Store

/-! Directories: the search of `namei`, and what it says about the entries. -/

namespace S8000.Filsys

open Foundation Foundation.Bytes Foundation.Buffer

def DIRSIZ : ℕ := 14

/-- `sizeof(struct direct)` -/
def DIRECT : ℕ := 16

/-- The name in an entry, with zeros behind it. -/
abbrev Name := Fin DIRSIZ → Byte

section Code

def dIno (dp : Buffer) (off : ℕ) : ℕ := ushort dp off

def dName (dp : Buffer) (off : ℕ) : Name := fun j ↦ dp (off + 2 + j)

/-- An entry in the byte order of the disk. -/
def direct (ino : ℕ) (name : Name) : List Byte := [BitVec.ofNat 8 (ino / 256), BitVec.ofNat 8 ino] ++ List.ofFn name

/-- What a search ends with: an entry, the place for a new one, or a block that cannot be read. -/
inductive Looked
  | found (off ino : ℕ)
  | missing (off : ℕ)
  | failed

/-- The buffer that `namei` searches. There is none for a block that is missing: `bread` gets -1 for it. -/
def searchBlock (v : Volume) (dp : File) (bn : ℕ) : Option Buffer :=
  match (bmap .read v dp bn).2.2 with
  | .block nb => some (v.view nb)
  | .none => none
  | .error => none

/-- The loop at `eloop` in `namei`, which ends with the directory. -/
def eloop (v : Volume) (dp : File) (name : Name) : ℕ → ℕ → Option ℕ → Buffer → Looked
  | 0, off, eo, _ => .missing (eo.getD off)
  | fuel + 1, off, eo, bp =>
    if dp.iSize ≤ off then .missing (eo.getD off)
    else
      match if off % BSIZE = 0 then searchBlock v dp (off / BSIZE) else some bp with
      | none => .failed
      | some bp =>
        let dent := off % BSIZE
        if dIno bp dent = 0 then eloop v dp name fuel (off + DIRECT) (some (eo.getD off)) bp
        else if dName bp dent = name then .found off (dIno bp dent)
        else eloop v dp name fuel (off + DIRECT) eo bp

/-- The search of `namei` from `seloop` on. -/
def seloop (v : Volume) (dp : File) (name : Name) : Looked := eloop v dp name dp.iSize.toNat 0 none cleared

end Code

section Entries

/-- How many entries a directory has, empty ones included. -/
def Object.slots (o : Object) : ℕ := (o.size.toNat + 15) / DIRECT

def Object.ino (o : Object) (k : ℕ) : ℕ := dIno o.bytes (DIRECT * k)

def Object.name (o : Object) (k : ℕ) : Name := dName o.bytes (DIRECT * k)

/-- What a search says about a directory. It fails only at a block without an entry. -/
inductive Object.Search (o : Object) (name : Name) : Looked → Prop
  | found {k : ℕ} (hk : k < o.slots) (hlive : o.ino k ≠ 0) (hname : o.name k = name)
      (hfirst : ∀ m < k, o.ino m ≠ 0 → o.name m ≠ name) : Search o name (.found (DIRECT * k) (o.ino k))
  | missing {k : ℕ} (hnone : ∀ m < o.slots, o.ino m ≠ 0 → o.name m ≠ name) (hk : k ≤ o.slots)
      (hempty : k < o.slots → o.ino k = 0) (hfirst : ∀ m < k, o.ino m ≠ 0) : Search o name (.missing (DIRECT * k))
  | failed {off : ℕ} (hoff : off < o.size) (hhole : ∀ i, i / BSIZE = off / BSIZE → o.bytes i = 0) : Search o name .failed

variable {k m : ℕ}

theorem slots_spec (o : Object) (k : ℕ) : k < o.slots ↔ (DIRECT * k : ℕ) < o.size := by
  rw [Object.slots, DIRECT]
  omega

theorem length_direct (ino : ℕ) (name : Name) : (direct ino name).length = DIRECT := by
  rw [direct, List.length_append, List.length_ofFn]
  rfl

/-- An entry is read back as it was written. -/
theorem dIno_put_direct {ino : ℕ} (h : ino < 65536) (dp : Buffer) (off : ℕ) (name : Name) :
    dIno (put dp off (direct ino name)) off = ino := by
  have hlen : (direct ino name).length = DIRECT := length_direct ino name
  have hhigh : put dp off (direct ino name) off = BitVec.ofNat 8 (ino / 256) :=
    @put_apply_add dp off 0 (direct ino name) (hlen ▸ by decide)
  have hlow : put dp off (direct ino name) (off + 1) = BitVec.ofNat 8 ino :=
    @put_apply_add dp off 1 (direct ino name) (hlen ▸ by decide)
  unfold dIno ushort
  rw [hhigh, hlow, BitVec.toNat_ofNat, BitVec.toNat_ofNat]
  omega

theorem dName_put_direct (dp : Buffer) (off ino : ℕ) (name : Name) : dName (put dp off (direct ino name)) off = name := by
  funext j
  have hlen : (direct ino name).length = DIRECT := length_direct ino name
  have hj : 2 + (j : ℕ) < (direct ino name).length := by
    have hlt : (j : ℕ) < 14 := j.isLt
    rw [hlen, DIRECT]
    omega
  have hget : (direct ino name)[2 + (j : ℕ)] = name j := by
    have hright := @List.getElem_append_right _ [BitVec.ofNat 8 (ino / 256), BitVec.ofNat 8 ino] (List.ofFn name)
      (2 + (j : ℕ)) (Nat.le_add_right ..) hj
    refine hright.trans ?_
    rw [List.getElem_ofFn]
    exact congrArg name (Fin.ext (Nat.add_sub_cancel_left ..))
  change put dp off (direct ino name) (off + 2 + j) = name j
  rw [Nat.add_assoc, put_apply_add hj, hget]

/-- The other entries stay. -/
theorem dIno_put_of_ne {data : List Byte} (h : m ≠ k) (hlen : data.length = DIRECT) (dp : Buffer) :
    dIno (put dp (DIRECT * k) data) (DIRECT * m) = dIno dp (DIRECT * m) := by
  rw [DIRECT] at *
  exact ushort_congr (put_apply_of_apart (by omega)) (put_apply_of_apart (by omega))

theorem dName_put_of_ne {data : List Byte} (h : m ≠ k) (hlen : data.length = DIRECT) (dp : Buffer) :
    dName (put dp (DIRECT * k) data) (DIRECT * m) = dName dp (DIRECT * m) := by
  funext j
  have hlt : (j : ℕ) < 14 := j.isLt
  rw [DIRECT] at *
  exact put_apply_of_apart (by omega)

end Entries

section Search

variable {v : Volume} {dp : File} {o : Object} {name : Name} {off fuel k : ℕ} {eo : Option ℕ} {bp : Buffer}

/-- What is known about the entries before a place: none of them has the name, and which is the first empty one. -/
structure Scanned (o : Object) (name : Name) (k : ℕ) (eo : Option ℕ) : Prop where
  others : ∀ m < k, o.ino m ≠ 0 → o.name m ≠ name
  live : eo = none → ∀ m < k, o.ino m ≠ 0
  empty : ∀ e, eo = some e → ∃ m < k, e = DIRECT * m ∧ o.ino m = 0 ∧ ∀ l < m, o.ino l ≠ 0

/-- At the end of the directory. -/
theorem Scanned.missing (h : Scanned o name o.slots eo) : o.Search name (.missing (eo.getD (DIRECT * o.slots))) := by
  cases eo with
  | none => exact .missing h.others le_rfl (fun hlt ↦ absurd hlt (lt_irrefl _)) (h.live rfl)
  | some e =>
    obtain ⟨m, hm, rfl, hzero, hfirst⟩ := h.empty e rfl
    exact .missing h.others hm.le (fun _ ↦ hzero) hfirst

theorem Scanned.skip (h : Scanned o name k eo) (hzero : o.ino k = 0) :
    Scanned o name (k + 1) (some (eo.getD (DIRECT * k))) := by
  refine ⟨fun m hm hlive ↦ ?_, fun heq ↦ absurd heq (Option.some_ne_none _), fun e he ↦ ?_⟩
  · rcases Nat.lt_succ_iff_lt_or_eq.mp hm with hlt | rfl
    · exact h.others m hlt hlive
    · exact absurd hzero hlive
  · obtain rfl := Option.some.inj he
    cases eo with
    | none => exact ⟨k, Nat.lt_succ_self k, rfl, hzero, h.live rfl⟩
    | some e =>
      obtain ⟨m, hm, hrest⟩ := h.empty e rfl
      exact ⟨m, Nat.lt_succ_of_lt hm, hrest⟩

theorem Scanned.pass (h : Scanned o name k eo) (hlive : o.ino k ≠ 0) (hname : o.name k ≠ name) :
    Scanned o name (k + 1) eo := by
  refine ⟨fun m hm hm' ↦ ?_, fun heq m hm ↦ ?_, fun e he ↦ ?_⟩
  · rcases Nat.lt_succ_iff_lt_or_eq.mp hm with hlt | rfl
    · exact h.others m hlt hm'
    · exact hname
  · rcases Nat.lt_succ_iff_lt_or_eq.mp hm with hlt | rfl
    · exact h.live heq m hlt
    · exact hlive
  · obtain ⟨m, hm, hrest⟩ := h.empty e he
    exact ⟨m, Nat.lt_succ_of_lt hm, hrest⟩

/-- A block of a directory is read, or it has no entry. -/
theorem searchBlock_spec (v : Volume) (dp : File) (bn : ℕ) :
    searchBlock v dp bn = some (blockContents v.view dp bn) ∨
      searchBlock v dp bn = none ∧ blockContents v.view dp bn = cleared := by
  unfold searchBlock
  cases hslot : slot bn with
  | none =>
    rw [bmap_of_large hslot]
    exact .inr ⟨rfl, blockContents_of_large hslot⟩
  | some t =>
    obtain ⟨i, sh, rest⟩ := t
    rw [bmap_read hslot, blockContents]
    split_ifs
    · exact .inr ⟨rfl, rfl⟩
    · exact .inl rfl

/-- An entry lies in one block. -/
theorem dent_of_block (hbytes : o.bytes = fileByte v.view dp) (k : ℕ) :
    dIno (blockContents v.view dp (DIRECT * k / BSIZE)) (DIRECT * k % BSIZE) = o.ino k ∧
      dName (blockContents v.view dp (DIRECT * k / BSIZE)) (DIRECT * k % BSIZE) = o.name k := by
  have hbyte (j : ℕ) (hj : j < DIRECT) :
      blockContents v.view dp (DIRECT * k / BSIZE) (DIRECT * k % BSIZE + j) = o.bytes (DIRECT * k + j) := by
    rw [hbytes, fileByte]
    rw [DIRECT] at *
    rw [BSIZE] at *
    have hdiv : (16 * k + j) / 512 = 16 * k / 512 := by omega
    have hmod : (16 * k + j) % 512 = 16 * k % 512 + j := by omega
    rw [hdiv, hmod]
  refine ⟨ushort_congr (hbyte 0 (by decide)) (hbyte 1 (by decide)), funext fun j ↦ ?_⟩
  have hlt : (j : ℕ) < 14 := j.isLt
  have hj := hbyte (2 + j) (by rw [DIRECT]; omega)
  rw [← Nat.add_assoc, ← Nat.add_assoc] at hj
  exact hj

/-- `eloop` by induction on its rounds. -/
theorem eloop_spec (hsize : o.size = dp.iSize) (hbytes : o.bytes = fileByte v.view dp) (hfuel : o.size.toNat ≤ DIRECT * k + fuel)
    (hk : k ≤ o.slots) (hscanned : Scanned o name k eo)
    (hbp : DIRECT * k % BSIZE ≠ 0 → bp = blockContents v.view dp (DIRECT * k / BSIZE)) :
    o.Search name (eloop v dp name fuel (DIRECT * k) eo bp) := by
  have hmissing (hlast : ¬ k < o.slots) : o.Search name (.missing (eo.getD (DIRECT * k))) := by
    obtain rfl : k = o.slots := le_antisymm hk (not_lt.mp hlast)
    exact hscanned.missing
  induction fuel generalizing k eo bp with
  | zero =>
    refine hmissing fun hlt ↦ ?_
    rw [slots_spec] at hlt
    omega
  | succ fuel ih =>
    rw [eloop]
    by_cases hend : dp.iSize ≤ (DIRECT * k : ℕ)
    · rw [if_pos hend]
      refine hmissing fun hlt ↦ ?_
      rw [slots_spec] at hlt
      omega
    · rw [if_neg hend]
      have hlt : k < o.slots := (slots_spec o k).mpr (hsize ▸ not_le.mp hend)
      have hread : (if DIRECT * k % BSIZE = 0 then searchBlock v dp (DIRECT * k / BSIZE) else some bp) =
          some (blockContents v.view dp (DIRECT * k / BSIZE)) ∨
          (if DIRECT * k % BSIZE = 0 then searchBlock v dp (DIRECT * k / BSIZE) else some bp) = none ∧
            blockContents v.view dp (DIRECT * k / BSIZE) = cleared := by
        split
        · exact searchBlock_spec v dp _
        · rename_i hinner
          exact .inl (congrArg some (hbp hinner))
      rcases hread with hread | ⟨hread, hhole⟩
      · rw [hread]
        dsimp only
        obtain ⟨hino, hname⟩ := dent_of_block hbytes k
        rw [hino, hname]
        have hnext : DIRECT * k + DIRECT = DIRECT * (k + 1) := rfl
        have hfuel' : o.size.toNat ≤ DIRECT * (k + 1) + fuel := by
          rw [DIRECT] at *
          omega
        have hbp' (hinner : DIRECT * (k + 1) % BSIZE ≠ 0) :
            blockContents v.view dp (DIRECT * k / BSIZE) = blockContents v.view dp (DIRECT * (k + 1) / BSIZE) := by
          refine congrArg (blockContents v.view dp) ?_
          rw [DIRECT, BSIZE] at *
          omega
        by_cases hzero : o.ino k = 0
        · rw [if_pos hzero, hnext]
          have hscanned' := hscanned.skip hzero
          refine ih hfuel' hlt hscanned' hbp' fun hlast ↦ ?_
          have hsame : k + 1 = o.slots := le_antisymm hlt (not_lt.mp hlast)
          rw [hsame] at hscanned' ⊢
          exact hscanned'.missing
        · rw [if_neg hzero]
          by_cases heq : o.name k = name
          · rw [if_pos heq]
            exact .found hlt hzero heq hscanned.others
          · rw [if_neg heq, hnext]
            have hscanned' := hscanned.pass hzero heq
            refine ih hfuel' hlt hscanned' hbp' fun hlast ↦ ?_
            have hsame : k + 1 = o.slots := le_antisymm hlt (not_lt.mp hlast)
            rw [hsame] at hscanned' ⊢
            exact hscanned'.missing
      · rw [hread]
        refine .failed ((slots_spec o k).mp hlt) fun i hi ↦ ?_
        rw [hbytes, fileByte, hi, hhole]
        rfl

/-- What `namei` finds in a directory. -/
theorem seloop_spec {ip : Inode} (hblocks : ip.HasBlocks) (v : Volume) (name : Name) :
    (ip.object v.view).Search name (seloop v ip.toFile name) := by
  refine @eloop_spec v ip.toFile _ name _ 0 none _ rfl ?_ ?_ (Nat.zero_le _) ⟨?_, ?_, ?_⟩ ?_
  · exact if_pos hblocks
  · exact Nat.le_add_left ..
  · exact fun m hm ↦ absurd hm (Nat.not_lt_zero m)
  · exact fun _ m hm ↦ absurd hm (Nat.not_lt_zero m)
  · exact fun e he ↦ absurd he.symm (Option.some_ne_none e)
  · exact fun hinner ↦ absurd rfl hinner

end Search

end S8000.Filsys
