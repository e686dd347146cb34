import S8000.Restore.Clash
import S8000.Restore.OwnNames

namespace S8000.Restore

open Foundation Foundation.Bytes Foundation.Numerals Foundation.Namespace V7
open Dump (Text Dinode Inodes Blocks Resolves direntsOf isDir isDot)

variable {host : Host} {work name : Plain} {inodes : Inodes} {blocks : Blocks} {fs : Fs}

/-- The restored tree is that of the dump, and its directories have the sizes of the dump. -/
structure Rebuilt (inodes : Inodes) (blocks : Blocks) (fs : Fs) (ρ : ℕ → ℕ) : Prop extends
    SameTree inodes blocks fs ρ where
  size {p : List Text} {k : ℕ} {d : Dinode} : Reached inodes blocks p k → inodes.get? k = some d → isDir inodes k →
    ∃ ss, fs.slots? (ρ k) = some ss ∧ 16 * ss.length = d.size

theorem slots?_dumpLook (k : Key) : (dumpLook inodes blocks host work name k).content.slots? = none := by
  have hcontent : ∀ (i : ℕ) (d : Dinode), (dumpContent inodes blocks i d).slots? = none := by
    intro i d
    rw [dumpContent]
    split <;> rfl
  cases k with
  | inl i =>
    rw [dumpLook]
    cases inodes.get? i with
    | none => rfl
    | some d => exact hcontent i d
  | inr p => rfl

section Sections

variable (htree : Treelike inodes blocks)
  (hdescribed : ∀ k d first aliases, Listed inodes blocks k d first aliases → Described blocks k d)
  (hroomy : Roomy host) (hspace : Spacious host) (hblank : Blank fs)
  (hfiles : ∀ f ∈ (dumpSections work name inodes blocks).payloads, host.files (encode f.1) = some f.2)
  (hempty : host.files (encode (emptyPayload work name)) = some [])
include htree hdescribed hroomy hspace hblank hfiles hempty

/-- Whatever the names are, the directories of the replay are well named and no temporary path leads anywhere. -/
theorem replay_named (hsized : Sized inodes) :
    (replay host fs (((dumpSections work name inodes blocks).lines work name).map Line.entry)).fs.Named ∧
      ∀ path ∈ (dumpSections work name inodes blocks).temporary, ∀ k,
        (replay host fs (((dumpSections work name inodes blocks).lines work name).map Line.entry)).fs.walk rootIno
          (components path) ≠ .ok k := by
  obtain ⟨place, ho, hplanted, -⟩ := planted_dump htree hdescribed hroomy hspace hblank hfiles
  have hnamed := hplanted.named ho slots?_dumpLook
  have hfs : ∀ e ∈ paddingEntries work name inodes blocks, e.kind = 'f' ∧ host.files e.aux = some [] := by
    intro e he
    obtain ⟨path, -, rfl⟩ := List.mem_map.mp he
    exact ⟨rfl, hempty⟩
  have hus : ∀ e ∈ unlinkEntries work name inodes blocks, e.kind = 'u' ∧
      ∃ q n, components e.path = q ++ [n] ∧ ¬ isDot n := by
    intro e he
    obtain ⟨path, hpath, rfl⟩ := List.mem_map.mp he
    obtain ⟨p, n, hn, rfl⟩ := (mem_temporary htree).mp hpath
    refine ⟨rfl, p, n, ?_, hn.not_isDot⟩
    exact (temporary_path htree hpath).trans (hn.components_absolute htree hsized)
  obtain ⟨hcleared, -, hgone⟩ := run_unlink host (run_empty_named hroomy hnamed hfs) hus
  rw [replay, entries_lines, List.foldl_append, List.foldl_append]
  generalize (unlinkEntries work name inodes blocks).foldl (step host) _ = st at hcleared hgone ⊢
  have hslots : ∀ i, ((dumpEntries work name inodes blocks ++ paddingEntries work name inodes blocks ++
      unlinkEntries work name inodes blocks).reverse.foldl (resetDirectory host) st).fs.slots? i = st.fs.slots? i :=
    slots?_resetDirectories _ st
  refine ⟨hcleared.congr hslots, fun path hpath k hk ↦ ?_⟩
  rw [Fs.walk_congr hslots] at hk
  refine hgone _ (List.mem_map_of_mem hpath) k ?_
  rwa [show (unlinkLine path).entry.path = encode path from rfl, temporary_path htree hpath]

end Sections

section Iff

variable (hroomy : Roomy host) (hspace : Spacious host) (hblank : Blank fs) (htree : Treelike inodes blocks)
  (hsized : Sized inodes) {r : Text × List (Text × List Byte)}
  (hwritten : writeDumpManifest work name inodes blocks = .ok r)
  (hfiles : ∀ f ∈ r.2, host.files (encode f.1) = some f.2)
include hroomy hspace hblank htree hsized hwritten hfiles

/-- No entry that the unlink section names is left. -/
theorem walk_padded {p : List Text} {n : Text} (hn : Padded inodes blocks p n) (k : ℕ) :
    (restore host fs (encode r.1)).fs.walk rootIno (p ++ [n]) ≠ .ok k := by
  have hrestore := restore_written htree host fs hwritten
  obtain ⟨hdescribed, -, rfl⟩ := (writeDumpManifest_eq_ok htree).mp hwritten
  obtain ⟨hempty, hpayloads⟩ := List.forall_mem_cons.mp hfiles
  have hgone := (replay_named htree hdescribed hroomy hspace hblank hpayloads hempty hsized).2
  have hpath : absolute (p ++ [n]) ∈ (dumpSections work name inodes blocks).temporary :=
    (mem_temporary htree).mpr ⟨p, n, hn, rfl⟩
  rw [hrestore, ← hn.components_absolute htree hsized]
  exact hgone _ hpath k

theorem unclashed_of_rebuilt {ρ : ℕ → ℕ} (h : Rebuilt inodes blocks (restore host fs (encode r.1)).fs ρ) :
    Dotted inodes blocks ∧ Unclashed inodes blocks := by
  have hgone : ∀ {p n}, Padded inodes blocks p n → ∀ k,
      (restore host fs (encode r.1)).fs.walk rootIno (p ++ [n]) ≠ .ok k :=
    walk_padded hroomy hspace hblank htree hsized hwritten hfiles
  have hrestore := restore_written htree host fs hwritten
  obtain ⟨hdescribed, -, rfl⟩ := (writeDumpManifest_eq_ok htree).mp hwritten
  obtain ⟨hempty, hpayloads⟩ := List.forall_mem_cons.mp hfiles
  have hnamed := (replay_named htree hdescribed hroomy hspace hblank hpayloads hempty hsized).1
  rw [← hrestore] at hnamed
  refine ⟨h.dotted htree hnamed, fun p k n hp hn j hj ↦ ?_⟩
  -- the entry of the dump would have been unlinked
  exact hgone hn (ρ j) (h.walk htree (hp.child hj hn.not_isDot))

theorem rebuilt_of_unclashed (hdotted : Dotted inodes blocks) (hclash : Unclashed inodes blocks) :
    ∃ ρ, Rebuilt inodes blocks (restore host fs (encode r.1)).fs ρ := by
  have hrestore := restore_written htree host fs hwritten
  obtain ⟨hdescribed, -, rfl⟩ := (writeDumpManifest_eq_ok htree).mp hwritten
  obtain ⟨hempty, hpayloads⟩ := List.forall_mem_cons.mp hfiles
  rw [hrestore]
  obtain ⟨place, gone, hrest, ho, hplanted, -⟩ :=
    planted_replay htree hdescribed hroomy hspace hblank hpayloads hsized hclash hempty
  refine ⟨_, sameTree_of_planted htree hrest hdotted ho hplanted, fun {p k d} hp hd hk ↦ ?_⟩
  have hdir : d.kind = Dump.ifdir := (Dump.isDir_of_get? hd).mp hk
  obtain ⟨d', first, aliases, hlisted⟩ := exists_listed htree hp
  obtain rfl := Option.some.inj (hd.symm.trans hlisted.inode)
  have hlive : liveSlots blocks k d ≤ d.size / 16 := by
    have hone := hdescribed k d first aliases hlisted
    rwa [Described, if_pos hdir] at hone
  have hnodup := ho.nodup
  rw [List.map_append] at hnodup
  have htag : .directory p ∈ tags _ gone := (mem_tags_remaining htree hrest).mpr ⟨p, k, hp, by
    rw [htree.tagOf_eq hp, if_pos hk]⟩
  refine ⟨slotsOf place _ gone p, ?_, length_slotsOf_padded htree hsized hdotted hnodup.of_append_left hp hd hdir hlive⟩
  rw [htree.tagOf_eq hp, if_pos hk]
  exact hplanted.dir htag

/-- Padding is invisible exactly when no temporary entry has the name of an entry of the dump, for a dump whose
directories have their two entries. -/
theorem padding_invisible_iff : (∃ ρ, Rebuilt inodes blocks (restore host fs (encode r.1)).fs ρ) ↔
    Dotted inodes blocks ∧ Unclashed inodes blocks := by
  constructor
  · rintro ⟨ρ, h⟩
    exact unclashed_of_rebuilt hroomy hspace hblank htree hsized hwritten hfiles h
  · rintro ⟨hdotted, hclash⟩
    exact rebuilt_of_unclashed hroomy hspace hblank htree hsized hwritten hfiles hdotted hclash

end Iff

section Example

variable {n : Text}

/-- A root of four slots and an empty file. -/
def oneFileInodes : Inodes :=
  (Dict.set ∅ 2 ⟨0o40755, 2, 0, 0, 64, 0, 0, 0, none⟩).set 3 ⟨0o100644, 1, 0, 0, 0, 0, 0, 0, none⟩

def oneFileBlocks (block : Dump.Record) : Blocks := Dict.set ∅ 2 (Dict.set ∅ 0 block)

/-- The root has its two entries and the file under the name `n`. -/
structure OneFile (block : Dump.Record) (n : Text) : Prop where
  entries : direntsOf oneFileInodes (oneFileBlocks block) 2 = [(2, ['.']), (2, ['.', '.']), (3, n)]
  name : n ≠ [] ∧ ¬ isDot n ∧ ∀ c ∈ n, c.toNat < 128 ∧ c ≠ '\t' ∧ c ≠ '\n' ∧ c ≠ '/'

variable {block : Dump.Record}

theorem oneFile_isDir {i : ℕ} : isDir oneFileInodes i ↔ i = 2 := by
  rw [isDir, oneFileInodes, Dict.get?_set, Dict.get?_set]
  by_cases hthree : 3 = i
  · subst hthree
    decide
  · by_cases htwo : 2 = i
    · subst htwo
      decide
    · rw [if_neg hthree, if_neg htwo]
      have hnone : ((∅ : Inodes).get? i).map Dinode.kind = none := rfl
      rw [hnone]
      exact iff_of_false (show ¬ 0 = Dump.ifdir by decide) (Ne.symm htwo)

theorem OneFile.entry (h : OneFile block n) {i k : ℕ} {m : Text} :
    Dump.Entry oneFileInodes (oneFileBlocks block) i m k ↔
      i = 2 ∧ (k = 2 ∧ isDot m ∨ k = 3 ∧ m = n) := by
  constructor
  · intro he
    obtain rfl := oneFile_isDir.mp he.isDir
    rw [Dump.Entry, h.entries] at he
    simp only [List.mem_cons, Prod.mk.injEq, List.not_mem_nil, or_false] at he
    rcases he with ⟨hk, hm⟩ | ⟨hk, hm⟩ | ⟨hk, hm⟩
    · exact ⟨rfl, .inl ⟨hk, .inl hm⟩⟩
    · exact ⟨rfl, .inl ⟨hk, .inr hm⟩⟩
    · exact ⟨rfl, .inr ⟨hk, hm⟩⟩
  · rintro ⟨rfl, ⟨rfl, rfl | rfl⟩ | ⟨rfl, rfl⟩⟩ <;> simp [Dump.Entry, h.entries]

theorem OneFile.treelike (h : OneFile block n) : Treelike oneFileInodes (oneFileBlocks block) where
  root := oneFile_isDir.mpr rfl
  once := by
    refine ⟨fun k hk hne ↦ absurd (oneFile_isDir.mp hk) hne, List.eq_nil_iff_forall_not_mem.mpr ?_⟩
    rintro ⟨k, i, m⟩ hmem
    obtain ⟨hall, hk⟩ := List.mem_filter.mp hmem
    obtain rfl : k = 2 := of_decide_eq_true hk
    obtain ⟨j, -, he⟩ := List.mem_flatMap.mp hall
    obtain ⟨e, he, heq⟩ := List.mem_map.mp he
    obtain ⟨he, hm⟩ := List.mem_filter.mp he
    rcases (h.entry.mp he).2 with ⟨-, hdot⟩ | ⟨hthree, -⟩
    · simp [hdot] at hm
    · rw [(Prod.mk.inj heq).1] at hthree
      cases hthree
  names {i k m} he := by
    rcases (h.entry.mp he).2 with ⟨-, hdot⟩ | ⟨-, rfl⟩
    · rcases hdot with rfl | rfl <;> simp
    · exact ⟨h.name.1, h.name.2.2⟩
  distinct i := by
    by_cases hi : i = 2
    · rw [hi, h.entries]
      have hdots := h.name.2.1
      rw [isDot, not_or] at hdots
      simp [Ne.symm hdots.1, Ne.symm hdots.2]
    · rw [direntsOf, if_neg (oneFile_isDir.not.mpr hi)]
      exact List.nodup_nil
  there {i k m} he := by
    rcases (h.entry.mp he).2 with ⟨rfl, -⟩ | ⟨rfl, -⟩
    · exact Dict.mem_iff_get?_eq_some.mpr ⟨_, rfl⟩
    · exact Dict.mem_iff_get?_eq_some.mpr ⟨_, rfl⟩
  dot {i k} he := by
    obtain ⟨rfl, ⟨rfl, -⟩ | ⟨-, hn⟩⟩ := h.entry.mp he
    · rfl
    · exact absurd (.inl hn.symm) h.name.2.1
  dotdot {i k} he := by
    obtain ⟨rfl, ⟨rfl, -⟩ | ⟨-, hn⟩⟩ := h.entry.mp he
    · exact .inl ⟨rfl, rfl⟩
    · exact absurd (.inr hn.symm) h.name.2.1

theorem get?_oneFileInodes {k : ℕ} {d : Dinode} (hd : oneFileInodes.get? k = some d) :
    k = 2 ∧ d.kind = Dump.ifdir ∧ d.size = 64 ∨ k = 3 ∧ d.kind = Dump.ifreg ∧ d.size = 0 := by
  rw [oneFileInodes, Dict.get?_set, Dict.get?_set] at hd
  split at hd
  · rename_i hk
    rw [← hk, ← Option.some.inj hd]
    exact .inr ⟨rfl, by decide, rfl⟩
  · split at hd
    · rename_i hk
      rw [← hk, ← Option.some.inj hd]
      exact .inl ⟨rfl, by decide, rfl⟩
    · cases hd

theorem sized_oneFileInodes : Sized oneFileInodes where
  bound hd _ := by
    rcases get?_oneFileInodes hd with ⟨-, -, hsize⟩ | ⟨-, -, hsize⟩ <;> omega
  slots hd _ := by
    rcases get?_oneFileInodes hd with ⟨-, -, hsize⟩ | ⟨-, -, hsize⟩ <;> omega

theorem OneFile.liveSlots (h : OneFile block n) {d : Dinode} (hd : oneFileInodes.get? 2 = some d)
    (hdir : d.kind = Dump.ifdir) : liveSlots (oneFileBlocks block) 2 d = 3 := by
  rw [Restore.liveSlots, ← Dump.direntsOf_eq hd hdir, h.entries]
  rfl

/-- Where the manifest of the dump is written, its payloads are empty files. -/
theorem OneFile.written (h : OneFile block n) : ∃ r, writeDumpManifest workDirectory ⟨['d'], by decide⟩ oneFileInodes
    (oneFileBlocks block) = .ok r ∧ ∀ f ∈ r.2, roomyHost.files (encode f.1) = some f.2 := by
  have hwork : Clean workDirectory.val := by decide
  have hname : Clean (⟨['d'], by decide⟩ : Plain).val := by decide
  obtain ⟨r, hr⟩ := exists_written h.treelike hwork hname fun k d first aliases hlisted ↦ by
    rw [Described]
    rcases get?_oneFileInodes hlisted.inode with ⟨rfl, hdir, hsize⟩ | ⟨rfl, hreg, hsize⟩
    · rw [if_pos hdir, h.liveSlots hlisted.inode hdir, hsize]
      decide
    · rw [if_neg (by rw [hreg]; decide)]
      exact .inl hreg
  refine ⟨r, hr, ?_⟩
  obtain ⟨-, -, rfl⟩ := (writeDumpManifest_eq_ok h.treelike).mp hr
  refine List.forall_mem_cons.mpr ⟨rfl, fun f hf ↦ ?_⟩
  obtain ⟨k, d, first, aliases, hlisted, hreg, rfl⟩ := mem_payloads.mp hf
  rcases get?_oneFileInodes hlisted.inode with ⟨rfl, hdir, -⟩ | ⟨rfl, -, hsize⟩
  · rw [hdir] at hreg
    exact absurd hreg (by decide)
  · rw [Dump.filedata, hlisted.inode, Option.map_some, hsize]
    rfl

theorem OneFile.padded (h : OneFile block n) {p : List Text} {m : Text} :
    Padded oneFileInodes (oneFileBlocks block) p m ↔ p = [] ∧ m = temporaryName 0 := by
  have hroot : Reached oneFileInodes (oneFileBlocks block) [] 2 := ⟨nofun, rfl⟩
  have hd : oneFileInodes.get? 2 = some ⟨0o40755, 2, 0, 0, 64, 0, 0, 0, none⟩ := rfl
  constructor
  · rintro ⟨k, d, number, hp, hk, hdir, hnumber, rfl⟩
    rcases get?_oneFileInodes hk with ⟨rfl, -, hsize⟩ | ⟨rfl, hreg, -⟩
    · rw [h.liveSlots hk hdir, hsize] at hnumber
      obtain rfl : number = 0 := by omega
      exact ⟨h.treelike.unique_path h.treelike.root hp hroot, rfl⟩
    · rw [hdir] at hreg
      exact absurd hreg (by decide)
  · rintro ⟨rfl, rfl⟩
    refine ⟨2, _, 0, hroot, hd, by decide, ?_, rfl⟩
    rw [h.liveSlots hd (by decide)]
    decide

theorem OneFile.dotted (h : OneFile block n) : Dotted oneFileInodes (oneFileBlocks block) := by
  intro p k m hp hk hm
  exact ⟨2, h.entry.mpr ⟨oneFile_isDir.mp hk, .inl ⟨rfl, hm⟩⟩⟩

def blankFs : Fs where
  inodes := Dict.set ∅ 2 ⟨.directory [some (['.'], 2), some (['.', '.'], 2)], 0o777, 2, 0, 0, 0, 0⟩
  calls := 0

theorem blank_blankFs : Blank blankFs where
  root := rfl
  only {i} hi := by
    rcases Dict.mem_set.mp hi with rfl | hi
    · rfl
    · exact absurd rfl hi

/-- The block of a root directory: its two entries and the file 3 under a name of at most 14 bytes. -/
def oneFileBlock (nm : List Byte) : List Byte :=
  [0, 2, 0x2E] ++ List.replicate 13 0 ++ [0, 2, 0x2E, 0x2E] ++ List.replicate 12 0 ++ [0, 3] ++ nm ++
    List.replicate (478 - nm.length) 0

theorem length_oneFileBlock {nm : List Byte} (h : nm.length ≤ 14) : (oneFileBlock nm).length = Dump.recordSize := by
  simp only [oneFileBlock, List.length_append, List.length_replicate, List.length_cons, List.length_nil]
  have hsize : Dump.recordSize = 512 := rfl
  omega

/-- A root with a file `a`. -/
def plainBlock : Dump.Record := ⟨oneFileBlock [0x61], length_oneFileBlock (by decide)⟩

theorem oneFile_plainBlock : OneFile plainBlock ['a'] := ⟨by decide +kernel, by simp [isDot]⟩

theorem padding_invisible_iff_plain : ∃ r ρ, writeDumpManifest workDirectory ⟨['d'], by decide⟩ oneFileInodes
    (oneFileBlocks plainBlock) = .ok r ∧
      Rebuilt oneFileInodes (oneFileBlocks plainBlock) (restore roomyHost blankFs (encode r.1)).fs ρ := by
  have h := oneFile_plainBlock
  obtain ⟨r, hr, hfiles⟩ := h.written
  have hmain := padding_invisible_iff roomy_roomyHost spacious_roomyHost blank_blankFs h.treelike sized_oneFileInodes
    hr hfiles
  obtain ⟨ρ, hρ⟩ := hmain.mpr ⟨h.dotted, fun p k m hp hm j hj ↦ by
    obtain ⟨-, rfl⟩ := h.padded.mp hm
    rcases (h.entry.mp hj).2 with ⟨-, hdot⟩ | ⟨-, heq⟩
    · exact not_isDot_temporaryName 0 hdot
    · exact absurd heq (by decide)⟩
  exact ⟨r, ρ, hr, hρ⟩

/-- A root with a file `.__R0000`. -/
def clashBlock : Dump.Record :=
  ⟨oneFileBlock [0x2E, 0x5F, 0x5F, 0x52, 0x30, 0x30, 0x30, 0x30], length_oneFileBlock (by decide)⟩

theorem oneFile_clashBlock : OneFile clashBlock ['.', '_', '_', 'R', '0', '0', '0', '0'] := ⟨by decide +kernel, by simp [isDot]⟩

/-- A file with the name of a temporary entry is unlinked. -/
theorem file_is_unlinked : Roomy roomyHost ∧ Spacious roomyHost ∧ Blank blankFs ∧
    Treelike oneFileInodes (oneFileBlocks clashBlock) ∧ Sized oneFileInodes ∧ ∃ r,
      writeDumpManifest workDirectory ⟨['d'], by decide⟩ oneFileInodes (oneFileBlocks clashBlock) = .ok r ∧
      (∀ f ∈ r.2, roomyHost.files (encode f.1) = some f.2) ∧
      Reached oneFileInodes (oneFileBlocks clashBlock) [['.', '_', '_', 'R', '0', '0', '0', '0']] 3 ∧
      (∀ k, (restore roomyHost blankFs (encode r.1)).fs.walk rootIno [['.', '_', '_', 'R', '0', '0', '0', '0']] ≠ .ok k) ∧
      ¬ ∃ ρ, Rebuilt oneFileInodes (oneFileBlocks clashBlock) (restore roomyHost blankFs (encode r.1)).fs ρ := by
  have h := oneFile_clashBlock
  obtain ⟨r, hr, hfiles⟩ := h.written
  have hroot : Reached oneFileInodes (oneFileBlocks clashBlock) [] 2 := ⟨nofun, rfl⟩
  have hfile := hroot.child (h.entry.mpr ⟨rfl, .inr ⟨rfl, rfl⟩⟩) h.name.2.1
  have hgone := walk_padded roomy_roomyHost spacious_roomyHost blank_blankFs h.treelike sized_oneFileInodes hr hfiles
    (h.padded.mpr ⟨rfl, rfl⟩)
  refine ⟨roomy_roomyHost, spacious_roomyHost, blank_blankFs, h.treelike, sized_oneFileInodes, r, hr, hfiles, hfile,
    hgone, ?_⟩
  rintro ⟨ρ, hρ⟩
  exact hgone _ (hρ.walk h.treelike hfile)

end Example

end S8000.Restore
