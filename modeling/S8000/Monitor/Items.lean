import S8000.Monitor.Assemble

namespace S8000.Monitor

open Foundation Foundation.Bytes Foundation.Assembly

section Words

theorem word?_eq_some {img : List Byte} {addr : ℕ} {w : Word} (h : word? img addr = some w) :
    ∃ rest, img.drop addr = wordBytes w ++ rest := by
  have hpos : ¬ (addr : ℤ) < 0 := Int.not_lt.mpr (Int.natCast_nonneg addr)
  simp only [word?, if_neg hpos, Int.toNat_natCast] at h
  split at h
  · rename_i hi lo rest hdrop
    cases h
    exact ⟨rest, by simp [wordBytes, hdrop]⟩
  · cases h

theorem words?_eq_some {img : List Byte} {addr n : ℕ} {words : List Word} (h : words? img addr n = some words) :
    ∃ rest, img.drop addr = words.flatMap wordBytes ++ rest ∧ words.length = n := by
  induction n generalizing addr words with
  | zero =>
    cases h
    exact ⟨img.drop addr, rfl, rfl⟩
  | succ n ih =>
    obtain ⟨w, hw, h⟩ := Option.bind_eq_some_iff.mp h
    obtain ⟨later, hlater, rfl⟩ := Option.map_eq_some_iff.mp h
    obtain ⟨rest, hrest⟩ := word?_eq_some hw
    obtain ⟨rest', hrest', rfl⟩ := @ih (addr + 2) _ hlater
    refine ⟨rest', ?_, rfl⟩
    have hdrop : img.drop (addr + 2) = rest := by
      rw [← List.drop_drop, hrest]
      rfl
    rw [hrest, ← hdrop, hrest', List.flatMap_cons, List.append_assoc]

theorem length_flatMap_wordBytes (words : List Word) : (words.flatMap wordBytes).length = 2 * words.length := by
  induction words with
  | nil => rfl
  | cons w rest ih =>
    rw [List.flatMap_cons, List.length_append, ih, List.length_cons, wordBytes, List.length_cons, List.length_cons,
      List.length_nil]
    omega

end Words

namespace Emitter

variable {e : Emitter} {addr : ℕ}

section Bytes

theorem length_bytes (addr stop : ℕ) : (e.bytes addr stop).length = min stop SIZE - addr := by
  rw [bytes, List.length_take, List.length_drop, img, e.length_img]
  omega

theorem bytes_append {addr mid stop : ℕ} (h : addr ≤ mid) (h' : mid ≤ stop) :
    e.bytes addr mid ++ e.bytes mid stop = e.bytes addr stop := by
  have hdrop : e.img.drop mid = (e.img.drop addr).drop (mid - addr) := by
    rw [List.drop_drop, Nat.add_sub_cancel' h]
  have hlen : stop - addr = (mid - addr) + (stop - mid) := by omega
  rw [bytes, bytes, bytes, hdrop, hlen, List.take_add]

theorem bytes_append_drop {addr stop : ℕ} (h : addr ≤ stop) : e.bytes addr stop ++ e.img.drop stop = e.img.drop addr := by
  have hdrop : e.img.drop stop = (e.img.drop addr).drop (stop - addr) := by
    rw [List.drop_drop, Nat.add_sub_cancel' h]
  rw [bytes, hdrop, List.take_append_drop]

theorem bytes_of_drop {out rest : List Byte} (h : e.img.drop addr = out ++ rest) :
    e.bytes addr (addr + out.length) = out := by
  rw [bytes, h, Nat.add_sub_cancel_left, List.take_left]

theorem bytes_of_word {w : Word} (h : word? e.img addr = some w) : e.bytes addr (addr + 2) = wordBytes w := by
  obtain ⟨rest, hrest⟩ := word?_eq_some h
  exact bytes_of_drop hrest

theorem bytes_of_words {n : ℕ} {words : List Word} (h : words? e.img addr n = some words) :
    e.bytes addr (addr + 2 * n) = words.flatMap wordBytes := by
  obtain ⟨rest, hrest, rfl⟩ := words?_eq_some h
  rw [← length_flatMap_wordBytes]
  exact bytes_of_drop hrest

theorem bytes_eq_replicate {b : Byte} {stop : ℕ} (hstop : stop ≤ SIZE)
    (h : ∀ a, addr ≤ a → a < stop → e.img[a]? = some b) : e.bytes addr stop = List.replicate (stop - addr) b := by
  apply List.ext_getElem?
  intro i
  rw [bytes, List.getElem?_take, List.getElem?_replicate, List.getElem?_drop]
  split
  · exact h (addr + i) (Nat.le_add_right _ _) (by omega)
  · rfl

end Bytes

section Runs

variable {ok : ℕ → Bool}

theorem scan_le {stop : ℕ} (h : stop ≤ SIZE) : scan 1 ok stop ≤ SIZE := by
  induction stop using scan.induct 1 ok with
  | case1 stop hok ih =>
    rw [scan_of_ok hok.1 hok.2]
    exact ih hok.1
  | case2 stop hok =>
    rw [scan_of_not hok]
    exact h

/-- A run passes only over what the test accepts. -/
theorem ok_of_lt_scan {stop a : ℕ} (h : stop ≤ a) (ha : a < scan 1 ok stop) : ok a := by
  induction stop using scan.induct 1 ok with
  | case1 stop hok ih =>
    rw [scan_of_ok hok.1 hok.2] at ha
    obtain rfl | hlt := Nat.eq_or_lt_of_le h
    · exact hok.2
    · exact ih hlt ha
  | case2 stop hok =>
    rw [scan_of_not hok] at ha
    omega

/-- A run of words is of even length. -/
theorem scan_two (stop : ℕ) : ∃ n, scan 2 ok stop = stop + 2 * n := by
  induction stop using scan.induct 2 ok with
  | case1 stop hok ih =>
    obtain ⟨n, hn⟩ := ih
    refine ⟨n + 1, ?_⟩
    rw [scan_of_ok hok.1 hok.2, hn]
    omega
  | case2 stop hok => exact ⟨0, scan_of_not hok⟩

end Runs

section Padding

/-- Fill runs are zeros up to the next boundary. -/
def FillsPad (e : Emitter) : Prop :=
  ∀ a, a < SIZE → e.kind a = .fill →
    e.img[a]? = some 0 ∧ a % 256 ≠ 0 ∧ ((a + 1) % 256 = 0 ∨ e.kind (a + 1) = .fill)

/-- Blank runs are the erased end of the image. -/
def BlanksLast (e : Emitter) : Prop :=
  ∀ a, a < SIZE → e.kind a = .blank → e.img[a]? = some 0xFF ∧ (a + 1 = SIZE ∨ e.kind (a + 1) = .blank)

theorem fill_stop (hfill : e.FillsPad) (ha : addr < SIZE) (hkind : e.kind addr = .fill) :
    scan 1 (fun a ↦ e.kind a = .fill) addr = (addr / 256 + 1) * 256 := by
  induction addr using scan.induct 1 (fun a ↦ e.kind a = .fill) with
  | case1 addr hok ih =>
    obtain ⟨-, -, hnext⟩ := hfill addr ha hkind
    have hsize : SIZE = 64 * 256 := rfl
    rw [scan_of_ok hok.1 hok.2]
    by_cases hbound : (addr + 1) % 256 = 0
    · have hnot : ¬ (addr + 1 < SIZE ∧ decide (e.kind (addr + 1) = .fill)) := by
        rintro ⟨hlt, hfilled⟩
        exact (hfill (addr + 1) hlt (of_decide_eq_true hfilled)).2.1 hbound
      rw [scan_of_not hnot]
      omega
    · rw [ih (by omega) (hnext.resolve_left hbound)]
      omega
  | case2 addr hok => exact absurd ⟨ha, decide_eq_true hkind⟩ hok

theorem fill_bytes (hfill : e.FillsPad) (ha : addr < SIZE) (hkind : e.kind addr = .fill) :
    e.bytes addr (scan 1 (fun a ↦ e.kind a = .fill) addr) = List.replicate ((256 - addr % 256) % 256) 0 := by
  have hsize : scan 1 (fun a ↦ decide (e.kind a = .fill)) addr ≤ SIZE := scan_le ha.le
  have hzero : ∀ a, addr ≤ a → a < scan 1 (fun a ↦ decide (e.kind a = .fill)) addr → e.img[a]? = some 0 := by
    intro a hle hlt
    exact (hfill a (lt_of_lt_of_le hlt hsize) (of_decide_eq_true (ok_of_lt_scan hle hlt))).1
  have hmod := (hfill addr ha hkind).2.1
  rw [bytes_eq_replicate hsize hzero, fill_stop hfill ha hkind]
  congr 1
  omega

theorem blank_stop (hblank : e.BlanksLast) (ha : addr < SIZE) (hkind : e.kind addr = .blank) :
    scan 1 (fun a ↦ e.kind a = .blank) addr = SIZE := by
  induction addr using scan.induct 1 (fun a ↦ e.kind a = .blank) with
  | case1 addr hok ih =>
    rw [scan_of_ok hok.1 hok.2]
    obtain hlast | hnext := (hblank addr ha hkind).2
    · rw [hlast, scan_of_not (fun h ↦ lt_irrefl _ h.1)]
    · by_cases hlt : addr + 1 < SIZE
      · exact ih hlt hnext
      · rw [scan_of_not (fun h ↦ hlt h.1)]
        omega
  | case2 addr hok => exact absurd ⟨ha, decide_eq_true hkind⟩ hok

theorem blank_bytes (hblank : e.BlanksLast) (ha : addr < SIZE) (hkind : e.kind addr = .blank) :
    e.bytes addr SIZE = List.replicate (SIZE - addr) 0xFF := by
  refine bytes_eq_replicate le_rfl fun a hle hlt ↦ (hblank a hlt ?_).1
  have hscan := blank_stop hblank ha hkind
  exact of_decide_eq_true (@ok_of_lt_scan (fun a ↦ decide (e.kind a = .blank)) _ _ hle (hscan ▸ hlt))

end Padding

section Refs

/-- The instruction that is written as such at an address. -/
def Writes (e : Emitter) (addr : ℕ) (i : Insn) : Prop :=
  e.kind addr = .code ∧ e.inputs.code.get? addr = some i ∧ (addr : ℤ) ∉ e.inputs.escapes

/-- The names in what is written at an address. -/
def refs (e : Emitter) (addr : ℕ) : List Ref :=
  match e.kind addr with
  | .code =>
    match e.inputs.code.get? addr with
    | some i => if (addr : ℤ) ∈ e.inputs.escapes then [] else (e.operands addr i).filterMap Piece.ref
    | none => []
  | .ptr =>
    match word? e.img addr with
    | some target => (e.pointerValue target).refs
    | none => []
  | _ => []

theorem refs_of_writes {i : Insn} (h : e.Writes addr i) : e.refs addr = (e.operands addr i).filterMap Piece.ref := by
  rw [refs, h.1]
  simp only [h.2.1, if_neg h.2.2]

theorem refs_of_pointer {target : Word} (hkind : e.kind addr = .ptr) (h : word? e.img addr = some target) :
    e.refs addr = (e.pointerValue target).refs := by
  rw [refs, hkind]
  simp only [h]

/-- Lines that only show bytes. -/
def Shows (lines : List Line) : Prop :=
  ∀ line ∈ lines, line.refs = [] ∧ (∀ name, line ≠ .label name) ∧ ∀ name value, line ≠ .equ name value

theorem shows_lit (words : List Word) : Shows [.word (words.map .lit)] := by
  intro line hline
  obtain rfl := List.mem_singleton.mp hline
  refine ⟨?_, by simp, by simp⟩
  simp [Line.refs, Value.refs]

theorem shows_asciiLines (data : List Byte) : Shows (asciiLines data) := by
  intro line hline
  obtain rfl | ⟨b, rfl⟩ | ⟨run, rfl⟩ := asciiLines_cases hline <;> simp [Line.refs]

theorem shows_append {lines lines' : List Line} (h : Shows lines) (h' : Shows lines') : Shows (lines ++ lines') :=
  fun line hline ↦ (List.mem_append.mp hline).elim (h line) (h' line)

end Refs

section Turns

/-- What a turn can write. -/
inductive Item (e : Emitter) (addr : ℕ) : List Line × ℕ → Prop
  | insn {i : Insn} (h : e.Writes addr i) (fits : addr + 2 * i.words ≤ SIZE) :
    Item e addr ([.insn i.mnem (e.operands addr i)], addr + 2 * i.words)
  | pointer {target : Word} (h : e.kind addr = .ptr) (read : word? e.img addr = some target) :
    Item e addr ([.word [e.pointerValue target]], addr + 2)
  | fill (h : e.kind addr = .fill) : Item e addr (e.fill addr)
  | blank (h : e.kind addr = .blank) : Item e addr (e.blank addr)
  | plain {lines : List Line} {next : ℕ} (hrefs : e.refs addr = []) (hshows : Shows lines)
    (houtput : ∀ asm table loc, output (Line.size asm) (Line.output asm table) loc lines = some (e.bytes addr next)) :
    Item e addr (lines, next)

theorem item_words {n : ℕ} {words : List Word} (hrefs : e.refs addr = []) (h : words? e.img addr n = some words) :
    e.Item addr ([.word (words.map .lit)], addr + 2 * n) := by
  refine .plain hrefs (shows_lit words) fun asm table loc ↦ output_singleton ?_
  rw [bytes_of_words h]
  exact valueBytes_lit words

theorem item_run {t : List Line × ℕ} (hrefs : e.refs addr = []) (h : e.run addr = some t) : e.Item addr t := by
  simp only [run] at h
  split at h
  · cases h
  · obtain ⟨words, hwords, rfl⟩ := Option.map_eq_some_iff.mp h
    obtain ⟨n, hn⟩ := @scan_two (fun a ↦ decide (e.kind a = e.kind addr ∧
      a - addr < 2 * (if (addr : ℤ) ∈ e.inputs.escapes then 1 else 4) ∧ ¬ e.splits addr a)) addr
    rw [hn] at hwords ⊢
    rw [show (addr + 2 * n - addr) / 2 = n by omega] at hwords
    exact item_words hrefs hwords

theorem item_message {t : List Line × ℕ} (hrefs : e.refs addr = []) (h : e.message addr = some t) : e.Item addr t := by
  obtain ⟨length, hlength, h⟩ := Option.bind_eq_some_iff.mp h
  have hshows : Shows (.word [.lit length] :: asciiLines (e.bytes (addr + 2) (addr + 2 + length.toNat))) :=
    shows_append (shows_lit [length]) (shows_asciiLines _)
  have houtput : ∀ asm table loc, output (Line.size asm) (Line.output asm table) loc
      (.word [.lit length] :: asciiLines (e.bytes (addr + 2) (addr + 2 + length.toNat))) =
        some (e.bytes addr (addr + 2 + length.toNat)) := by
    intro asm table loc
    rw [output_cons, asciiLines_output, ← bytes_append (Nat.le_add_right addr 2) (Nat.le_add_right _ _),
      bytes_of_word hlength]
    rfl
  dsimp only at h
  split at h
  · obtain ⟨pad, hpad, rfl⟩ := Option.map_eq_some_iff.mp h
    refine .plain hrefs (shows_append hshows ?_) fun asm table loc ↦ ?_
    · intro line hline
      obtain rfl := List.mem_singleton.mp hline
      simp [Line.refs]
    · have hlast : e.bytes (addr + 2 + length.toNat) (addr + 2 + length.toNat + 1) = [pad] := by
        obtain ⟨hlt, hget⟩ := List.getElem?_eq_some_iff.mp hpad
        rw [bytes, List.drop_eq_getElem_cons hlt, hget, Nat.add_sub_cancel_left]
        rfl
      rw [← bytes_append (e := e) (Nat.le_trans (Nat.le_add_right addr 2) (Nat.le_add_right _ _)) (Nat.le_succ _),
        hlast]
      exact output_append_some (houtput asm table loc) (output_singleton rfl)
  · cases h
    exact .plain hrefs hshows houtput

/-- What one turn can do. -/
theorem turn_item {t : List Line × ℕ} (h : e.turn addr = some t) : e.Item addr t := by
  unfold turn at h
  split at h
  · rename_i hkind
    split at h
    · rename_i i hcode
      split at h
      · rename_i hescape
        obtain ⟨words, hwords, rfl⟩ := Option.map_eq_some_iff.mp h
        exact item_words (by simp [refs, hkind, hcode, hescape]) hwords
      · rename_i hescape
        obtain ⟨words, hwords, rfl⟩ := Option.map_eq_some_iff.mp h
        refine .insn ⟨hkind, hcode, hescape⟩ ?_
        have hlen : (e.bytes addr (addr + 2 * i.words)).length = 2 * i.words := by
          rw [bytes_of_words hwords, length_flatMap_wordBytes, (words?_eq_some hwords).choose_spec.2]
        have hpos := i.words_pos
        rw [length_bytes] at hlen
        omega
    · rename_i hcode
      exact item_run (by simp [refs, hkind, hcode]) h
  · rename_i hkind
    obtain ⟨target, htarget, rfl⟩ := Option.map_eq_some_iff.mp h
    exact .pointer hkind htarget
  · rename_i hkind
    cases h
    exact .fill hkind
  · rename_i hkind
    cases h
    exact .blank hkind
  · rename_i hkind
    exact item_message (by simp [refs, hkind]) h
  · rename_i hkind
    cases h
    exact .plain (by simp [refs, hkind]) (shows_asciiLines _) fun asm table loc ↦ asciiLines_output loc _
  · rename_i hkind
    cases h
    refine .plain (by simp [refs, hkind]) ?_ fun asm table loc ↦ output_singleton rfl
    intro line hline
    obtain rfl := List.mem_singleton.mp hline
    simp [Line.refs]
  · rename_i hkind
    exact item_run (by simp [refs, hkind]) h
  · rename_i hkind
    exact item_run (by simp [refs, hkind]) h

/-- The names in the lines of a turn. -/
theorem mem_refs {t : List Line × ℕ} (h : e.turn addr = some t) {r : Ref} :
    (∃ line ∈ t.1, r ∈ line.refs) ↔ r ∈ e.refs addr := by
  cases turn_item h with
  | insn hwrites fits => simp [refs_of_writes hwrites, Line.refs]
  | pointer hkind hread => simp [refs_of_pointer hkind hread, Line.refs]
  | fill hkind => simp [refs, hkind, fill, Line.refs]
  | blank hkind => simp [refs, hkind, blank, Line.refs]
  | plain hrefs hshows _ =>
    rw [hrefs]
    constructor
    · rintro ⟨line, hline, hr⟩
      rwa [(hshows line hline).1] at hr
    · exact fun hr ↦ absurd hr List.not_mem_nil

/-- A turn writes no definition. -/
theorem turn_defines_nothing {t : List Line × ℕ} (h : e.turn addr = some t) {line : Line} (hline : line ∈ t.1) :
    (∀ name, line ≠ .label name) ∧ ∀ name value, line ≠ .equ name value := by
  cases turn_item h with
  | plain _ hshows _ => exact (hshows line hline).2
  | _ =>
    obtain rfl := List.mem_singleton.mp hline
    exact ⟨(fun name hname ↦ by cases hname), (fun name value hname ↦ by cases hname)⟩

end Turns

end Emitter

end S8000.Monitor
