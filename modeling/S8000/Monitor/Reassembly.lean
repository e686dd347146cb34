import S8000.Monitor.Items

namespace S8000.Monitor

open Foundation Foundation.Bytes Foundation.Assembly

namespace Emitter

variable {asm : Assembler} {table : Table} {e : Emitter} {addr : ℕ}

/-- The name has the value that it stands for. -/
def Resolved (table : Table) (r : Ref) : Prop := table r.name = some r.value

/-- The instruction at an address assembles to its bytes if its names have their values. -/
def FaithfulAt (asm : Assembler) (e : Emitter) (addr : ℕ) : Prop :=
  ∀ i, e.Writes addr i →
    asm.size (insnText i.mnem (e.operands addr i)) = 2 * i.words ∧
    ∀ table, (∀ r ∈ e.refs addr, Resolved table r) →
      asm.encode table addr (insnText i.mnem (e.operands addr i)) = some (e.bytes addr (addr + 2 * i.words))

def Faithful (asm : Assembler) (e : Emitter) : Prop := ∀ addr ∈ e.stops 0, FaithfulAt asm e addr

section Turn

theorem pointerValue_word (target : Word) (h : ∀ r ∈ (e.pointerValue target).refs, Resolved table r) :
    (e.pointerValue target).word table = some target := by
  cases hvalue : e.pointerValue target with
  | lit w =>
    unfold pointerValue at hvalue
    split at hvalue
    · split at hvalue
      · cases hvalue
      · exact congrArg some (Value.lit.inj hvalue).symm
    · exact congrArg some (Value.lit.inj hvalue).symm
  | symbol r =>
    have hr : Resolved table r := h r (by simp [hvalue, Value.refs])
    have hvalue' : r.value = target.toNat := by
      unfold pointerValue at hvalue
      split at hvalue
      · split at hvalue
        · cases hvalue
          rfl
        · cases hvalue
      · cases hvalue
    rw [Value.word, hr, Option.map_some, hvalue', BitVec.ofNat_toNat, BitVec.setWidth_eq]

/-- A turn writes the bytes that it passes over. -/
theorem turn_output {t : List Line × ℕ} (hfill : e.FillsPad) (ha : addr < SIZE) (hkind : e.kind addr ≠ .blank)
    (hasm : FaithfulAt asm e addr) (h : e.turn addr = some t) (hnames : ∀ r ∈ e.refs addr, Resolved table r) :
    output (Line.size asm) (Line.output asm table) addr t.1 = some (e.bytes addr t.2) := by
  cases turn_item h with
  | insn hwrites fits => exact output_singleton ((hasm _ hwrites).2 table hnames)
  | pointer hptr hread =>
    rw [refs_of_pointer hptr hread] at hnames
    refine output_singleton ?_
    simp only [Line.output, valueBytes, pointerValue_word _ hnames, Option.bind_some, Option.map_some,
      List.append_nil, bytes_of_word hread]
  | fill hfilled =>
    refine output_singleton ?_
    simp only [fill, Line.output, fill_bytes hfill ha hfilled]
  | blank hblank => exact absurd hblank hkind
  | plain _ _ houtput => exact houtput asm table addr

/-- A turn takes the room of what it passes over, whatever the names mean. -/
theorem turn_place {t : List Line × ℕ} (hfill : e.FillsPad) (ha : addr < SIZE) (hkind : e.kind addr ≠ .blank)
    (hasm : FaithfulAt asm e addr) (h : e.turn addr = some t) (hnext : t.2 < SIZE) :
    place (Line.size asm) addr t.1 = t.2 := by
  have hplain : e.refs addr = [] → place (Line.size asm) addr t.1 = t.2 := by
    intro hrefs
    have houtput : output (Line.size asm) (Line.output asm fun _ ↦ none) addr t.1 = some (e.bytes addr t.2) :=
      turn_output hfill ha hkind hasm h (by simp [hrefs])
    have hlt := turn_lt ha h
    rw [place_eq (fun _ _ _ ↦ length_output) houtput, length_bytes]
    omega
  cases turn_item h with
  | insn hwrites fits => exact congrArg (addr + ·) (hasm _ hwrites).1
  | pointer hptr hread => rfl
  | fill hfilled => exact hplain (by simp [refs, hfilled])
  | blank hblank => exact absurd hblank hkind
  | plain hrefs _ _ => exact hplain hrefs

end Turn

section Whole

/-- Where a turn that is not the last goes on, its lines end too. -/
def Sits (asm : Assembler) (e : Emitter) (addr : ℕ) : Prop :=
  ∀ t, e.turn addr = some t → t.2 < SIZE → place (Line.size asm) addr t.1 = t.2

/-- A turn leaves the image behind it to the turns that follow, or is the last. -/
def Denotes (asm : Assembler) (table : Table) (e : Emitter) (addr : ℕ) : Prop :=
  ∀ t, e.turn addr = some t → ∃ out, output (Line.size asm) (Line.output asm table) addr t.1 = some out ∧
    (t.2 < SIZE ∧ out ++ e.img.drop t.2 = e.img.drop addr ∨
      SIZE ≤ t.2 ∧ out ++ List.replicate (SIZE - addr - out.length) 0xFF = e.img.drop addr)

theorem sits (hfill : e.FillsPad) (hblank : e.BlanksLast) (ha : addr < SIZE) (hasm : FaithfulAt asm e addr) :
    Sits asm e addr := by
  intro t ht hnext
  by_cases hkind : e.kind addr = .blank
  · have hstop : t.2 = SIZE := by
      simp only [turn, hkind, Option.some.injEq] at ht
      rw [← ht]
      exact blank_stop hblank ha hkind
    omega
  · exact turn_place hfill ha hkind hasm ht hnext

theorem denotes (hfill : e.FillsPad) (hblank : e.BlanksLast) (ha : addr < SIZE) (hasm : FaithfulAt asm e addr)
    (hnames : ∀ r ∈ e.refs addr, Resolved table r) : Denotes asm table e addr := by
  intro t ht
  have hlt := turn_lt ha ht
  have hdrop := @bytes_append_drop e
  by_cases hkind : e.kind addr = .blank
  · simp only [turn, hkind, Option.some.injEq] at ht
    obtain rfl := ht
    have hstop : (e.blank addr).2 = SIZE := blank_stop hblank ha hkind
    refine ⟨[], rfl, .inr ⟨hstop.ge, ?_⟩⟩
    have hrest : e.img.drop SIZE = [] := List.drop_of_length_le e.length_img.le
    rw [List.nil_append, List.length_nil, Nat.sub_zero, ← blank_bytes hblank ha hkind, ← hdrop ha.le, hrest,
      List.append_nil]
  · refine ⟨_, turn_output hfill ha hkind hasm ht hnames, ?_⟩
    by_cases hnext : t.2 < SIZE
    · exact .inl ⟨hnext, hdrop hlt.le⟩
    · have hrest : e.img.drop t.2 = [] := List.drop_of_length_le (e.length_img.le.trans (not_lt.mp hnext))
      have hlen := length_bytes (e := e) addr t.2
      refine .inr ⟨not_lt.mp hnext, ?_⟩
      rw [show SIZE - addr - (e.bytes addr t.2).length = 0 by omega, List.replicate_zero, ← hdrop hlt.le, hrest]

theorem labelLines_output (addr : ℕ) :
    output (Line.size asm) (Line.output asm table) addr (e.labelLines addr) = some [] := by
  unfold labelLines
  split <;> rfl

theorem labelLines_place (addr : ℕ) : place (Line.size asm) addr (e.labelLines addr) = addr := by
  unfold labelLines
  split <;> rfl

/-- The lines of a stop and of all later ones denote the image from there on. -/
theorem emit_output {lines : List Line} (h : e.emit addr = some lines) (hle : addr ≤ SIZE)
    (hsits : ∀ a ∈ e.stops addr, Sits asm e a) (hdenotes : ∀ a ∈ e.stops addr, Denotes asm table e a) :
    ∃ out, output (Line.size asm) (Line.output asm table) addr lines = some out ∧
      out ++ List.replicate (SIZE - addr - out.length) 0xFF = e.img.drop addr := by
  revert hle hsits hdenotes
  apply emit_induction ?stop ?turn h
  case stop =>
    intro addr hstop hle _ _
    have hlen : e.img.length ≤ addr := e.length_img.le.trans hstop
    refine ⟨[], rfl, ?_⟩
    rw [List.drop_of_length_le hlen, Nat.sub_eq_zero_of_le hstop]
    rfl
  case turn =>
    intro addr t rest ha ht hrest ih _ hsits hdenotes
    rw [stops_of_turn ha ht] at hsits hdenotes
    obtain ⟨out, hout, ⟨hnext, hdrop⟩ | ⟨hnext, hdrop⟩⟩ := hdenotes addr List.mem_cons_self t ht
    · obtain ⟨out', hout', hdrop'⟩ := ih hnext.le (fun a hmem ↦ hsits a (List.mem_cons_of_mem _ hmem))
        (fun a hmem ↦ hdenotes a (List.mem_cons_of_mem _ hmem))
      have hplace := hsits addr List.mem_cons_self t ht hnext
      have hlen : addr + out.length = t.2 := by
        rw [← hplace, place_eq (fun _ _ _ ↦ length_output) hout]
      refine ⟨out ++ out', ?_, ?_⟩
      · refine output_append_some (output_append_some (labelLines_output addr) ?_) ?_
        · rwa [labelLines_place]
        · rwa [place_append, labelLines_place, hplace]
      · rw [← hdrop, ← hdrop', List.append_assoc, List.length_append,
          show SIZE - addr - (out.length + out'.length) = SIZE - t.2 - out'.length by omega]
    · rw [emit_of_le hnext] at hrest
      cases hrest
      refine ⟨out, ?_, hdrop⟩
      rw [List.append_nil]
      refine output_append_some (labelLines_output addr) ?_
      rwa [labelLines_place]

/-- If the whole text denotes something, so do the lines of every stop. -/
theorem output_of_stop {lines : List Line} (h : e.emit addr = some lines) {a : ℕ} (ha : a ∈ e.stops addr)
    (hsits : ∀ a ∈ e.stops addr, Sits asm e a) {all : List Byte}
    (hall : output (Line.size asm) (Line.output asm table) addr lines = some all) :
    ∃ t out, e.turn a = some t ∧ output (Line.size asm) (Line.output asm table) a t.1 = some out := by
  revert ha hsits all
  apply emit_induction ?stop ?turn h
  case stop =>
    intro addr hstop ha
    rw [stops_of_le hstop] at ha
    cases ha
  case turn =>
    intro addr t rest hlt ht hrest ih ha hsits all hall
    rw [stops_of_turn hlt ht] at ha hsits
    obtain ⟨first, later, hfirst, hlater, -⟩ := of_output_append hall
    obtain rfl | ha := List.mem_cons.mp ha
    · obtain ⟨_, out, -, hout, -⟩ := of_output_append hfirst
      rw [labelLines_place] at hout
      exact ⟨t, out, ht, hout⟩
    · have hnext : t.2 < SIZE := by
        by_contra hle
        rw [stops_of_le (not_lt.mp hle)] at ha
        cases ha
      rw [place_append, labelLines_place, hsits addr List.mem_cons_self t ht hnext] at hlater
      exact ih ha (fun a hmem ↦ hsits a (List.mem_cons_of_mem _ hmem)) hlater

end Whole

end Emitter

end S8000.Monitor
