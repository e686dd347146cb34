import S8000.Monitor.Listing

namespace S8000.Monitor

open Foundation Foundation.Bytes

section Lines

inductive Value
  | lit (w : Word)
  | symbol (r : Ref)
deriving DecidableEq

/-- A line of the source without the note behind it. -/
inductive Line
  | equ (name : String) (value : ℕ)
  | label (name : String)
  | insn (mnem : String) (ops : List Piece)
  | word (values : List Value)
  | byte (values : List Byte)
  | ascii (run : List Byte)
  | balign
  | comment
deriving DecidableEq

/-- A byte that `.ascii` can show. -/
def Ascii (b : Byte) : Prop := 0x20 ≤ b.toNat ∧ b.toNat < 0x7F ∧ b.toNat ≠ 0x22 ∧ b.toNat ≠ 0x5C

instance (b : Byte) : Decidable (Ascii b) := inferInstanceAs (Decidable (_ ∧ _))

def asciiRun (run : List Byte) : List Line := if run = [] then [] else [.ascii run]

def asciiRuns (run : List Byte) : List Byte → List Line
  | [] => asciiRun run
  | b :: rest => if Ascii b then asciiRuns (run ++ [b]) rest else asciiRun run ++ .byte [b] :: asciiRuns [] rest

def asciiLines (data : List Byte) : List Line :=
  if asciiRuns [] data = [] then [.comment] else asciiRuns [] data

end Lines

section Scan

/-- `while stop < SIZE and ok(stop): stop += step`. -/
def scan (step : ℕ) [NeZero step] (ok : ℕ → Bool) (stop : ℕ) : ℕ :=
  if stop < SIZE ∧ ok stop then scan step ok (stop + step) else stop
termination_by SIZE - stop
decreasing_by
  have hstep := NeZero.pos step
  omega

variable {step : ℕ} [NeZero step] {ok : ℕ → Bool}

theorem scan_of_ok {stop : ℕ} (h : stop < SIZE) (hok : ok stop) : scan step ok stop = scan step ok (stop + step) := by
  rw [scan, if_pos ⟨h, hok⟩]

theorem scan_of_not {stop : ℕ} (h : ¬ (stop < SIZE ∧ ok stop)) : scan step ok stop = stop := by
  rw [scan, if_neg h]

theorem le_scan (stop : ℕ) : stop ≤ scan step ok stop := by
  induction stop using scan.induct step ok with
  | case1 stop h ih =>
    rw [scan_of_ok h.1 h.2]
    omega
  | case2 stop h => rw [scan_of_not h]

theorem lt_scan {stop : ℕ} (h : stop < SIZE) (hok : ok stop) : stop < scan step ok stop := by
  have hstep := NeZero.pos step
  have hle := @le_scan step _ ok (stop + step)
  rw [scan_of_ok h hok]
  omega

end Scan

/-- What `main` has when it starts to write. -/
structure Emitter where
  inputs : Inputs
  kind : ℕ → Kind
  labels : Dict ℤ String
  length_img : inputs.img.length = SIZE

def Inputs.prepare (g : Inputs) : Option Emitter :=
  if h : g.img.length = SIZE then
    g.classify.bind fun kind ↦ g.labels.map fun labels ↦ ⟨g, kind, labels, h⟩
  else none

namespace Emitter

section Turn

variable (e : Emitter)

def img : List Byte := e.inputs.img

/-- The bytes of the image from one address up to another. -/
def bytes (addr stop : ℕ) : List Byte := (e.img.drop addr).take (stop - addr)

/-- `{value: name}`. -/
def equ : Dict ℕ String := e.inputs.equates.foldl (fun d c ↦ d.set c.2 c.1) ∅

/-- `declared.get(addr, frozenset())`. -/
def allowed (addr : ℕ) : List ℤ := (e.inputs.pointers.filter fun c ↦ c.1 = (addr : ℤ)).map Prod.snd

def operands (addr : ℕ) (i : Insn) : List Piece :=
  match i.branch with
  | some (before, t) =>
    match e.labels.get? t with
    | some name => [.text before, .symbol ⟨name, t, true⟩]
    | none => substitute e.equ e.labels (e.allowed addr) i.ops
  | none => substitute e.equ e.labels (e.allowed addr) i.ops

/-- An instruction that gas cannot reproduce, as data. -/
def escaped (addr : ℕ) (i : Insn) : Option (List Line × ℕ) :=
  (words? e.img addr i.words).map fun words ↦ ([.word (words.map .lit)], addr + 2 * i.words)

def instruction (addr : ℕ) (i : Insn) : Option (List Line × ℕ) :=
  (words? e.img addr i.words).map fun _ ↦ ([.insn i.mnem (e.operands addr i)], addr + 2 * i.words)

/-- The word of a table of code addresses. -/
def pointerValue (target : Word) : Value :=
  match e.labels.get? target.toNat with
  | some name => if (target.toNat : ℤ) ∈ e.inputs.code then .symbol ⟨name, target.toNat, true⟩ else .lit target
  | none => .lit target

def pointer (addr : ℕ) : Option (List Line × ℕ) :=
  (word? e.img addr).map fun target ↦ ([.word [e.pointerValue target]], addr + 2)

def fill (addr : ℕ) : List Line × ℕ := ([.balign], scan 1 (fun a ↦ e.kind a = .fill) addr)

def blank (addr : ℕ) : List Line × ℕ := ([.comment], scan 1 (fun a ↦ e.kind a = .blank) addr)

def message (addr : ℕ) : Option (List Line × ℕ) :=
  (word? e.img addr).bind fun length ↦
    let lines := .word [.lit length] :: asciiLines (e.bytes (addr + 2) (addr + 2 + length.toNat))
    let next := addr + 2 + length.toNat
    if next % 2 = 1 then (e.img[next]?).map fun pad ↦ (lines ++ [.byte [pad]], next + 1) else some (lines, next)

/-- A label behind the first byte ends a run. -/
def splits (addr a : ℕ) : Bool := a ≠ addr ∧ (a : ℤ) ∈ e.labels

def string (addr : ℕ) : List Line × ℕ :=
  let stop := scan 1 (fun a ↦ e.kind a = .string ∧ ¬ e.splits addr a) addr
  (asciiLines (e.bytes addr stop), stop)

def byte (addr : ℕ) : List Line × ℕ :=
  let stop := scan 1 (fun a ↦ e.kind a = .byte ∧ a - addr < 6 ∧ ¬ e.splits addr a) addr
  ([.byte (e.bytes addr stop)], stop)

def run (addr : ℕ) : Option (List Line × ℕ) :=
  let n := if (addr : ℤ) ∈ e.inputs.escapes then 1 else 4
  let stop := scan 2 (fun a ↦ e.kind a = e.kind addr ∧ a - addr < 2 * n ∧ ¬ e.splits addr a) addr
  -- the note of an escape shows the instruction
  if (addr : ℤ) ∈ e.inputs.escapes ∧ (addr : ℤ) ∉ e.inputs.code then none
  else (words? e.img addr ((stop - addr) / 2)).map fun words ↦ ([.word (words.map .lit)], stop)

/-- What the loop writes at an address behind the label, and where it goes on. -/
def turn (addr : ℕ) : Option (List Line × ℕ) :=
  match e.kind addr with
  | .code =>
    match e.inputs.code.get? addr with
    | some i => if (addr : ℤ) ∈ e.inputs.escapes then e.escaped addr i else e.instruction addr i
    | none => e.run addr
  | .ptr => e.pointer addr
  | .fill => some (e.fill addr)
  | .blank => some (e.blank addr)
  | .msg => e.message addr
  | .string => some (e.string addr)
  | .byte => some (e.byte addr)
  | .word => e.run addr
  | .other _ => e.run addr

end Turn

section Progress

variable {e : Emitter} {addr : ℕ}

theorem run_lt (ha : addr < SIZE) {t : List Line × ℕ} (h : e.run addr = some t) : addr < t.2 := by
  simp only [run] at h
  split at h
  · cases h
  · obtain ⟨words, -, rfl⟩ := Option.map_eq_some_iff.mp h
    refine lt_scan ha ?_
    simp only [splits, Nat.sub_self]
    split <;> simp

theorem turn_lt (ha : addr < SIZE) {t : List Line × ℕ} (h : e.turn addr = some t) : addr < t.2 := by
  unfold turn at h
  split at h
  · split at h
    · rename_i i hcode
      have hpos := i.words_pos
      split at h <;> obtain ⟨words, -, rfl⟩ := Option.map_eq_some_iff.mp h <;> (dsimp only; omega)
    · exact run_lt ha h
  · obtain ⟨target, -, rfl⟩ := Option.map_eq_some_iff.mp h
    exact Nat.lt_add_of_pos_right (Nat.succ_pos 1)
  · rename_i hkind
    cases h
    exact lt_scan ha (by simp [hkind])
  · rename_i hkind
    cases h
    exact lt_scan ha (by simp [hkind])
  · obtain ⟨length, -, h⟩ := Option.bind_eq_some_iff.mp h
    dsimp only at h
    split at h
    · obtain ⟨pad, -, rfl⟩ := Option.map_eq_some_iff.mp h
      dsimp only
      omega
    · cases h
      dsimp only
      omega
  · rename_i hkind
    cases h
    exact lt_scan ha (by simp [hkind, splits])
  · rename_i hkind
    cases h
    exact lt_scan ha (by simp [hkind, splits])
  · exact run_lt ha h
  · exact run_lt ha h

end Progress

section Loop

variable (e : Emitter)

def labelLines (addr : ℕ) : List Line :=
  match e.labels.get? addr with
  | some name => [.label name]
  | none => []

/-- `while addr < SIZE`. -/
def emit (addr : ℕ) : Option (List Line) :=
  if _ha : addr < SIZE then
    match _h : e.turn addr with
    | some t => (emit t.2).map fun rest ↦ e.labelLines addr ++ t.1 ++ rest
    | none => none
  else some []
termination_by SIZE - addr
decreasing_by
  have hlt := turn_lt _ha _h
  omega

/-- The addresses at which the loop stops. -/
def stops (addr : ℕ) : List ℕ :=
  if _ha : addr < SIZE then
    match _h : e.turn addr with
    | some t => addr :: stops t.2
    | none => [addr]
  else []
termination_by SIZE - addr
decreasing_by
  have hlt := turn_lt _ha _h
  omega

variable {e} {addr : ℕ}

theorem emit_of_turn {t : List Line × ℕ} (ha : addr < SIZE) (h : e.turn addr = some t) :
    e.emit addr = (e.emit t.2).map fun rest ↦ e.labelLines addr ++ t.1 ++ rest := by
  rw [emit, dif_pos ha]
  split
  · rename_i t' h'
    rw [Option.some.inj (h.symm.trans h')]
  · rename_i h'
    cases h.symm.trans h'

theorem emit_eq_some {lines : List Line} (ha : addr < SIZE) (h : e.emit addr = some lines) :
    ∃ t rest, e.turn addr = some t ∧ e.emit t.2 = some rest ∧ lines = e.labelLines addr ++ t.1 ++ rest := by
  rw [emit, dif_pos ha] at h
  split at h
  · rename_i t ht
    obtain ⟨rest, hrest, rfl⟩ := Option.map_eq_some_iff.mp h
    exact ⟨t, rest, ht, hrest, rfl⟩
  · cases h

theorem emit_of_le (h : SIZE ≤ addr) : e.emit addr = some [] := by rw [emit, dif_neg (not_lt.mpr h)]

/-- What every turn hands on to the text in front of it holds of the whole text. -/
theorem emit_induction {P : ℕ → List Line → Prop} (stop : ∀ addr, SIZE ≤ addr → P addr [])
    (turn : ∀ addr t rest, addr < SIZE → e.turn addr = some t → e.emit t.2 = some rest → P t.2 rest →
      P addr (e.labelLines addr ++ t.1 ++ rest))
    {lines : List Line} (h : e.emit addr = some lines) : P addr lines := by
  induction addr using emit.induct e generalizing lines with
  | case1 addr ha t ht ih =>
    obtain ⟨t', rest, ht', hrest, rfl⟩ := emit_eq_some ha h
    obtain rfl := Option.some.inj (ht.symm.trans ht')
    exact turn addr t rest ha ht hrest (ih hrest)
  | case2 addr ha ht =>
    obtain ⟨t', rest, ht', -⟩ := emit_eq_some ha h
    cases ht.symm.trans ht'
  | case3 addr ha =>
    rw [emit_of_le (not_lt.mp ha)] at h
    cases h
    exact stop addr (not_lt.mp ha)

theorem stops_of_turn {t : List Line × ℕ} (ha : addr < SIZE) (h : e.turn addr = some t) :
    e.stops addr = addr :: e.stops t.2 := by
  rw [stops, dif_pos ha]
  split
  · rename_i t' h'
    rw [Option.some.inj (h.symm.trans h')]
  · rename_i h'
    cases h.symm.trans h'

theorem stops_of_le (h : SIZE ≤ addr) : e.stops addr = [] := by rw [stops, dif_neg (not_lt.mpr h)]

end Loop

end Emitter

def Inputs.equLines (g : Inputs) : List Line := g.equates.map fun c ↦ .equ c.1 c.2

/-- The source that `main` prints. -/
def Inputs.main (g : Inputs) : Option (List Line) :=
  g.prepare.bind fun e ↦ (e.emit 0).map (g.equLines ++ ·)

end S8000.Monitor
