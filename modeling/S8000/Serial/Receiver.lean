import S8000.Serial.Packet
import S8000.Foundation.Memory

namespace S8000.Serial

open Foundation Foundation.Bytes

/-- The registers the drivers use, their memory, and the serial port: what arrives before the
line falls silent, bytes and pauses of an inter-byte timeout, and the bytes sent. -/
structure Cpu where
  r0 : Word := 0
  r1 : Word := 0
  r2 : Word := 0
  r3 : Word := 0
  r4 : Word := 0
  r5 : Word := 0
  r6 : Word := 0
  r7 : Word := 0
  r15 : Word := 0
  mem : Memory
  rx : List (Option Byte) := []
  tx : List Byte := []

namespace Cpu

/-- The status bits of the port: a byte received, transmitter empty. -/
def received : Byte := 0x05
def transmitterEmpty : Byte := 0x04

/-- `.Lgetbyte`: `r0` is zero after a timeout. -/
def getByte (m : Cpu) : Cpu :=
  match m.rx with
  | [] => { m with r0 := 0, r2 := word (high m.r2) transmitterEmpty }
  | none :: rx => { m with r0 := 0, r2 := word (high m.r2) transmitterEmpty, rx := rx }
  | some b :: rx =>
    { m with
      r0 := 0xFFFF
      r2 := word (high m.r2) received
      r3 := word (high m.r3) b
      rx := rx }

/-- `.Lputbyte` with the byte loaded into `rl0`. -/
def putByte (m : Cpu) (b : Byte) : Cpu :=
  { m with
    r0 := word (high m.r0) b
    r2 := word (high m.r2) transmitterEmpty
    tx := m.tx ++ [b] }

/-- `add r1,r1` and the exclusive or when it carries. -/
def crcBit (r1 : Word) : Word := if r1.msb then (r1 + r1) ^^^ 0x1021 else r1 + r1

/-- `.Lcrcbyte`. -/
def crcByte (m : Cpu) : Cpu :=
  { m with r0 := 0, r1 := crcBit^[8] (word (high m.r1 ^^^ low m.r3) (low m.r1)) }

/-- Where the receive core leaves off: at a label of the driver, behind a new block, or at
`.Lresponse` again after a repeated block has been acknowledged. -/
inductive Exit where
  | bad
  | eot
  | error
  | valid
  | duplicate
deriving DecidableEq

/-- The two bytes behind the data. -/
def checkCrc (m : Cpu) (k : Cpu → Exit × Cpu) : Exit × Cpu :=
  let m := m.getByte
  if m.r0 = 0 then (.bad, m)
  else if low m.r3 ≠ high m.r1 then (.bad, m)
  else
    let m := m.getByte
    if m.r0 = 0 then (.bad, m)
    else if low m.r3 ≠ low m.r1 then (.bad, m)
    else k m

/-- `.Ldiscard` with `n` passes left. -/
def discard : ℕ → Cpu → Exit × Cpu
  | 0, m => m.checkCrc fun m ↦
    let m := m.putByte ack
    (.duplicate, { m with r3 := word 0 (low m.r3) })
  | n + 1, m =>
    let m := m.getByte
    if m.r0 = 0 then (.bad, m)
    else
      let m := m.crcByte
      discard n { m with r6 := m.r6 - 1 }

/-- `.Lcopy` with `n` passes left. -/
def copy : ℕ → Cpu → Exit × Cpu
  | 0, m => m.checkCrc fun m ↦ (.valid, m)
  | n + 1, m =>
    let m := m.getByte
    if m.r0 = 0 then (.bad, m)
    else
      let m := m.crcByte
      copy n
        { m with
          mem := m.mem.store m.r5 (low m.r3)
          r5 := m.r5 + 1
          r6 := m.r6 - 1 }

/-- `.Lnew`. -/
def newBlock (m : Cpu) : Exit × Cpu :=
  if m.r4.toNat < 128 then (.bad, m) else copy 128 { m with r1 := 0, r6 := 128 }

/-- The block number and its complement have been read into `rh6` and `rl3`. -/
def dispatch (m : Cpu) : Exit × Cpu :=
  let m := { m with r3 := word (high m.r3) (low m.r3 ^^^ high m.r6) }
  if low m.r3 ≠ 0xFF then (.bad, m)
  else if high m.r6 = high m.r2 then m.newBlock
  else
    let m := { m with r0 := word (high m.r0) (high m.r2 - 1) }
    if high m.r6 ≠ low m.r0 then (.bad, m)
    else discard 128 { m with r1 := 0, r6 := 128 }

/-- `.Lresponse`. -/
def response (m : Cpu) : Exit × Cpu :=
  let m := m.getByte
  if m.r0 = 0 then (.bad, m)
  else if low m.r3 = Serial.eot then (.eot, m)
  else if low m.r3 = can then (.error, m)
  else if low m.r3 ≠ soh then (.bad, m)
  else
    let m := m.getByte
    if m.r0 = 0 then (.bad, m)
    else
      let m := { m with r6 := word (low m.r3) (low m.r6) }
      let m := m.getByte
      if m.r0 = 0 then (.bad, m) else m.dispatch

theorem getByte_nil {m : Cpu} (h : m.rx = []) :
    m.getByte = { m with r0 := 0, r2 := word (high m.r2) transmitterEmpty } := by
  rw [getByte, h]

theorem getByte_none {m : Cpu} {rx : List (Option Byte)} (h : m.rx = none :: rx) :
    m.getByte = { m with r0 := 0, r2 := word (high m.r2) transmitterEmpty, rx := rx } := by
  rw [getByte, h]

theorem getByte_some {m : Cpu} {b : Byte} {rx : List (Option Byte)} (h : m.rx = some b :: rx) :
    m.getByte =
      { m with
        r0 := 0xFFFF
        r2 := word (high m.r2) received
        r3 := word (high m.r3) b
        rx := rx } := by
  rw [getByte, h]

/-- `.Ldrain`. -/
def drain (m : Cpu) : Cpu :=
  if _h : m.getByte.r0 = 0 then m.getByte else drain m.getByte
termination_by m.rx.length
decreasing_by
  cases hrx : m.rx with
  | nil => exact absurd (by rw [getByte_nil hrx]) _h
  | cons o rx =>
    cases o with
    | none => exact absurd (by rw [getByte_none hrx]) _h
    | some b =>
      rw [getByte_some hrx, List.length_cons]
      exact Nat.lt_succ_self _

/-- What the core never changes, whatever arrives. -/
structure Frame (m m' : Cpu) : Prop where
  r4 : m'.r4 = m.r4
  r7 : m'.r7 = m.r7
  r15 : m'.r15 = m.r15
  rh2 : high m'.r2 = high m.r2
  rh3 : high m'.r3 = high m.r3
  tx : m'.tx = m.tx

/-- Nothing has been stored either. -/
structure Still (m m' : Cpu) : Prop extends Frame m m' where
  mem : m'.mem = m.mem
  r5 : m'.r5 = m.r5

theorem Frame.trans {a b c : Cpu} (h : Frame a b) (h' : Frame b c) : Frame a c :=
  ⟨h'.r4.trans h.r4, h'.r7.trans h.r7, h'.r15.trans h.r15, h'.rh2.trans h.rh2,
    h'.rh3.trans h.rh3, h'.tx.trans h.tx⟩

theorem Still.refl (m : Cpu) : Still m m := ⟨⟨rfl, rfl, rfl, rfl, rfl, rfl⟩, rfl, rfl⟩

theorem Still.trans {a b c : Cpu} (h : Still a b) (h' : Still b c) : Still a c :=
  ⟨h.toFrame.trans h'.toFrame, h'.mem.trans h.mem, h'.r5.trans h.r5⟩

theorem getByte_still (m : Cpu) : Still m m.getByte := by
  rw [getByte]
  split
  · exact ⟨⟨rfl, rfl, rfl, high_word _ _, rfl, rfl⟩, rfl, rfl⟩
  · exact ⟨⟨rfl, rfl, rfl, high_word _ _, rfl, rfl⟩, rfl, rfl⟩
  · exact ⟨⟨rfl, rfl, rfl, high_word _ _, high_word _ _, rfl⟩, rfl, rfl⟩

theorem crcByte_still (m : Cpu) : Still m m.crcByte := ⟨⟨rfl, rfl, rfl, rfl, rfl, rfl⟩, rfl, rfl⟩

theorem drain_still (m : Cpu) : Still m m.drain := by
  fun_induction drain m with
  | case1 m h => exact m.getByte_still
  | case2 m h ih => exact m.getByte_still.trans ih

theorem crcBit_eq : crcBit = Remainder.shift 0x1021#16 := by
  funext c
  have hadd : c + c = c <<< 1 := by
    rw [BitVec.shiftLeft_eq_mul_twoPow]
    bv_omega
  rw [crcBit, Remainder.shift, hadd]
  rfl

theorem word_xor_high (c : Word) (b : Byte) :
    word (high c ^^^ b) (low c) = c ^^^ (b.setWidth 16 <<< 8) := by
  apply BitVec.eq_of_getLsbD_eq
  intro i hi
  simp only [word, high, low, BitVec.getLsbD_append, BitVec.getLsbD_xor, BitVec.getLsbD_extractLsb',
    BitVec.getLsbD_shiftLeft, BitVec.getLsbD_setWidth]
  by_cases h : i < 8
  · simp [h]
  · simp [h, show i - 8 < 8 by omega, show 8 + (i - 8) = i by omega, show i - 8 < 16 by omega, hi]

theorem crcByte_r1 (m : Cpu) : m.crcByte.r1 = Remainder.feed 0x1021#16 m.r1 (low m.r3) := by
  rw [crcByte, Remainder.feed, crcBit_eq, word_xor_high]

/-- A byte has been read: `r0` is not zero and `rl3` holds it. -/
theorem getByte_some_spec {m : Cpu} {b : Byte} {rx : List (Option Byte)} (h : m.rx = some b :: rx) :
    m.getByte.r0 ≠ 0 ∧ low m.getByte.r3 = b ∧ m.getByte.rx = rx ∧ m.getByte.r1 = m.r1 ∧
      m.getByte.r6 = m.r6 := by
  have hready : (0xFFFF : Word) ≠ 0 := by decide
  rw [getByte_some h]
  exact ⟨hready, low_word _ _, rfl, rfl, rfl⟩

/-- The line has paused or fallen silent. -/
def Pause : List (Option Byte) → Prop
  | some _ :: _ => False
  | _ => True

theorem getByte_rx (m : Cpu) : m.getByte.rx = m.rx.tail := by
  rw [getByte]
  split <;> simp_all

theorem getByte_pause {m : Cpu} (h : Pause m.rx) : m.getByte.r0 = 0 := by
  cases hrx : m.rx with
  | nil => rw [getByte_nil hrx]
  | cons o rx =>
    cases o with
    | none => rw [getByte_none hrx]
    | some b =>
      rw [hrx] at h
      exact h.elim

/-- Draining empties the line unless it pauses once more. -/
theorem drain_rx (m : Cpu) (h : none ∉ m.rx) : m.drain.rx = [] := by
  fun_induction drain m with
  | case1 m h0 =>
    rw [getByte_rx]
    cases hrx : m.rx with
    | nil => rfl
    | cons o rx =>
      cases o with
      | none =>
        rw [hrx] at h
        exact absurd List.mem_cons_self h
      | some b => exact absurd h0 (getByte_some_spec hrx).1
  | case2 m h0 ih =>
    apply ih
    rw [getByte_rx]
    exact fun hmem ↦ h (List.mem_of_mem_tail hmem)

section Crc

variable {m : Cpu} {k : Cpu → Exit × Cpu}

theorem checkCrc_good {rest : List (Option Byte)}
    (h : m.rx = some (high m.r1) :: some (low m.r1) :: rest) :
    ∃ m', m.checkCrc k = k m' ∧ Still m m' ∧ m'.rx = rest := by
  obtain ⟨h0, h3, hrx, h1, -⟩ := getByte_some_spec h
  obtain ⟨h0', h3', hrx', h1', -⟩ := getByte_some_spec hrx
  refine ⟨m.getByte.getByte, ?_, m.getByte_still.trans m.getByte.getByte_still, hrx'⟩
  rw [checkCrc]
  simp only [if_neg h0, h3, h1, ne_eq, not_true_eq_false, if_false, if_neg h0', h3', h1']

/-- The line pauses before the remainder is complete. -/
theorem checkCrc_pause {got : List Byte} {rest : List (Option Byte)}
    (hrx : m.rx = got.map some ++ rest) (hp : Pause rest)
    (hgot : got = [] ∨ got = [high m.r1]) :
    ∃ m', m.checkCrc k = (.bad, m') ∧ Still m m' ∧ m'.rx = rest.tail := by
  rcases hgot with rfl | rfl
  · have h0 : m.getByte.r0 = 0 := getByte_pause (by rw [hrx]; exact hp)
    refine ⟨m.getByte, ?_, m.getByte_still, by rw [getByte_rx, hrx]; rfl⟩
    rw [checkCrc]
    simp only [if_pos h0]
  · obtain ⟨h0, h3, hrx', h1, -⟩ := getByte_some_spec hrx
    have h0' : m.getByte.getByte.r0 = 0 := getByte_pause (by rw [hrx']; exact hp)
    refine ⟨m.getByte.getByte, ?_, m.getByte_still.trans m.getByte.getByte_still,
      by rw [getByte_rx, hrx']; rfl⟩
    rw [checkCrc]
    simp only [if_neg h0, h3, h1, ne_eq, not_true_eq_false, if_false, if_pos h0']

/-- A pause, or bytes other than the remainder. -/
theorem checkCrc_bad
    (h : ∀ rest, m.rx ≠ some (high m.r1) :: some (low m.r1) :: rest) :
    ∃ m', m.checkCrc k = (.bad, m') ∧ Still m m' ∧ ∀ o ∈ m'.rx, o ∈ m.rx := by
  have hsub : ∀ o ∈ m.getByte.rx, o ∈ m.rx := by
    rw [getByte_rx]
    exact fun o ho ↦ List.mem_of_mem_tail ho
  have hsub' : ∀ o ∈ m.getByte.getByte.rx, o ∈ m.rx := by
    rw [getByte_rx]
    exact fun o ho ↦ hsub o (List.mem_of_mem_tail ho)
  have hstill := m.getByte_still.trans m.getByte.getByte_still
  rw [checkCrc]
  simp only
  split
  · exact ⟨_, rfl, m.getByte_still, hsub⟩
  rename_i h0
  split
  · exact ⟨_, rfl, m.getByte_still, hsub⟩
  rename_i hh
  split
  · exact ⟨_, rfl, hstill, hsub'⟩
  rename_i h0'
  split
  · exact ⟨_, rfl, hstill, hsub'⟩
  rename_i hl
  exfalso
  cases hrx : m.rx with
  | nil => exact h0 (getByte_pause (by rw [hrx]; trivial))
  | cons o rx =>
    cases o with
    | none => exact h0 (getByte_pause (by rw [hrx]; trivial))
    | some b =>
      obtain ⟨-, h3, hrx', h1, -⟩ := getByte_some_spec hrx
      cases rx with
      | nil => exact h0' (getByte_pause (by rw [hrx']; trivial))
      | cons o rx =>
        cases o with
        | none => exact h0' (getByte_pause (by rw [hrx']; trivial))
        | some c =>
          obtain ⟨-, h3', -, h1', -⟩ := getByte_some_spec hrx'
          rw [h3, h1, not_not] at hh
          rw [h3', h1', h1, not_not] at hl
          exact h rx (by rw [hrx, hh, hl])

end Crc

/-- One data byte of a new block. -/
theorem copy_step {m : Cpu} {b : Byte} {rx : List (Option Byte)} (hrx : m.rx = some b :: rx)
    (n : ℕ) :
    ∃ m', copy (n + 1) m = copy n m' ∧ Frame m m' ∧ m'.rx = rx ∧ m'.mem = m.mem.store m.r5 b ∧
      m'.r5 = m.r5 + 1 ∧ m'.r1 = Remainder.feed 0x1021#16 m.r1 b := by
  obtain ⟨h0, h3, hrx', h1, -⟩ := getByte_some_spec hrx
  have hstill := m.getByte_still.trans m.getByte.crcByte_still
  have hlow : low m.getByte.crcByte.r3 = b := h3
  have hr1 : m.getByte.crcByte.r1 = Remainder.feed 0x1021#16 m.r1 b := by rw [crcByte_r1, h1, h3]
  have hframe := hstill.toFrame
  rw [copy]
  simp only [if_neg h0]
  refine ⟨_, rfl, ⟨hframe.r4, hframe.r7, hframe.r15, hframe.rh2, hframe.rh3, hframe.tx⟩, hrx', ?_,
    ?_, hr1⟩
  · rw [hlow, hstill.mem, hstill.r5]
  · rw [hstill.r5]

/-- Data bytes that arrive are stored one behind the other. -/
theorem copy_bytes (bytes : List Byte) (rest : List (Option Byte)) (n : ℕ) (m : Cpu)
    (hrx : m.rx = bytes.map some ++ rest) :
    ∃ m', copy (n + bytes.length) m = copy n m' ∧ Frame m m' ∧ m'.rx = rest ∧
      m'.mem = m.mem.storeList m.r5 bytes ∧ m'.r5 = m.r5 + BitVec.ofNat 16 bytes.length ∧
      m'.r1 = Remainder.remainder 0x1021#16 m.r1 bytes := by
  induction bytes generalizing m with
  | nil => exact ⟨m, rfl, (Still.refl m).toFrame, hrx, rfl, (BitVec.add_zero _).symm, rfl⟩
  | cons b bytes ih =>
    obtain ⟨m₁, hstep, hframe₁, hrx₁, hmem₁, hr5₁, hr1₁⟩ := copy_step hrx (n + bytes.length)
    obtain ⟨m', hcopy, hframe, hrest, hmem, hr5, hr1⟩ := ih m₁ hrx₁
    refine ⟨m', hstep.trans hcopy, hframe₁.trans hframe, hrest, ?_, ?_, ?_⟩
    · rw [hmem, hmem₁, hr5₁, Memory.storeList]
    · rw [hr5, hr5₁, List.length_cons, BitVec.ofNat_add, BitVec.add_assoc, BitVec.add_comm 1]
      rfl
    · rw [hr1, hr1₁, Remainder.remainder_cons]

/-- The line pauses while data is expected. -/
theorem copy_pause {m : Cpu} (hp : Pause m.rx) (n : ℕ) :
    ∃ m', copy (n + 1) m = (.bad, m') ∧ Still m m' ∧ m'.rx = m.rx.tail := by
  have h0 := getByte_pause hp
  refine ⟨m.getByte, ?_, m.getByte_still, m.getByte_rx⟩
  rw [copy]
  simp only [if_pos h0]

theorem discard_step {m : Cpu} {b : Byte} {rx : List (Option Byte)} (hrx : m.rx = some b :: rx)
    (n : ℕ) :
    ∃ m', discard (n + 1) m = discard n m' ∧ Still m m' ∧ m'.rx = rx ∧
      m'.r1 = Remainder.feed 0x1021#16 m.r1 b := by
  obtain ⟨h0, h3, hrx', h1, -⟩ := getByte_some_spec hrx
  have hstill := m.getByte_still.trans m.getByte.crcByte_still
  have hr1 : m.getByte.crcByte.r1 = Remainder.feed 0x1021#16 m.r1 b := by rw [crcByte_r1, h1, h3]
  have hframe := hstill.toFrame
  rw [discard]
  simp only [if_neg h0]
  exact ⟨_, rfl, ⟨⟨hframe.r4, hframe.r7, hframe.r15, hframe.rh2, hframe.rh3, hframe.tx⟩,
    hstill.mem, hstill.r5⟩, hrx', hr1⟩

theorem discard_bytes (bytes : List Byte) (rest : List (Option Byte)) (n : ℕ) (m : Cpu)
    (hrx : m.rx = bytes.map some ++ rest) :
    ∃ m', discard (n + bytes.length) m = discard n m' ∧ Still m m' ∧ m'.rx = rest ∧
      m'.r1 = Remainder.remainder 0x1021#16 m.r1 bytes := by
  induction bytes generalizing m with
  | nil => exact ⟨m, rfl, Still.refl m, hrx, rfl⟩
  | cons b bytes ih =>
    obtain ⟨m₁, hstep, hstill₁, hrx₁, hr1₁⟩ := discard_step hrx (n + bytes.length)
    obtain ⟨m', hdiscard, hstill, hrest, hr1⟩ := ih m₁ hrx₁
    refine ⟨m', hstep.trans hdiscard, hstill₁.trans hstill, hrest, ?_⟩
    rw [hr1, hr1₁, Remainder.remainder_cons]

theorem discard_pause {m : Cpu} (hp : Pause m.rx) (n : ℕ) :
    ∃ m', discard (n + 1) m = (.bad, m') ∧ Still m m' ∧ m'.rx = m.rx.tail := by
  have h0 := getByte_pause hp
  refine ⟨m.getByte, ?_, m.getByte_still, m.getByte_rx⟩
  rw [discard]
  simp only [if_pos h0]

section Header

variable {m : Cpu} {a b : Byte} {rest : List (Option Byte)}

/-- The three bytes of a header have been read. -/
theorem response_header (hrx : m.rx = some soh :: some a :: some b :: rest) :
    ∃ m', m.response = m'.dispatch ∧ Still m m' ∧ m'.rx = rest ∧ high m'.r6 = a ∧
      low m'.r3 = b := by
  have hsoh : soh ≠ Serial.eot := by decide
  have hsoh' : soh ≠ can := by decide
  obtain ⟨h0, h3, hrx₁, -, -⟩ := getByte_some_spec hrx
  obtain ⟨h0', h3', hrx₂, -, -⟩ := getByte_some_spec hrx₁
  let m₂ : Cpu := { m.getByte.getByte with
    r6 := word (low m.getByte.getByte.r3) (low m.getByte.getByte.r6) }
  have hstill₂ : Still m.getByte.getByte m₂ := ⟨⟨rfl, rfl, rfl, rfl, rfl, rfl⟩, rfl, rfl⟩
  have hrx₂' : m₂.rx = some b :: rest := hrx₂
  obtain ⟨h0'', h3'', hrx₃, -, hr6⟩ := getByte_some_spec hrx₂'
  refine ⟨m₂.getByte, ?_, ?_, hrx₃, ?_, h3''⟩
  · rw [response]
    simp only [if_neg h0, h3, if_neg hsoh, if_neg hsoh', ne_eq, not_true_eq_false, if_false,
      if_neg h0']
    exact if_neg h0''
  · exact ((m.getByte_still.trans m.getByte.getByte_still).trans hstill₂).trans m₂.getByte_still
  · rw [hr6, high_word, h3']

/-- The line pauses inside the header. -/
theorem response_pause {got : List Byte} (hrx : m.rx = got.map some ++ rest) (hp : Pause rest)
    (hgot : got.length < 3) (hsoh : got.take 1 <+: [soh]) :
    ∃ m', m.response = (.bad, m') ∧ Still m m' ∧ m'.rx = rest.tail := by
  have hne : soh ≠ Serial.eot := by decide
  have hne' : soh ≠ can := by decide
  rcases got with _ | ⟨x, _ | ⟨y, _ | ⟨z, got⟩⟩⟩
  · have h0 := getByte_pause (m := m) (by rw [hrx]; exact hp)
    refine ⟨m.getByte, ?_, m.getByte_still, by rw [getByte_rx, hrx]; rfl⟩
    rw [response]
    simp only [if_pos h0]
  · obtain rfl : x = soh := by simpa using hsoh
    obtain ⟨h0, h3, hrx₁, -, -⟩ := getByte_some_spec hrx
    have h0' := getByte_pause (m := m.getByte) (by rw [hrx₁]; exact hp)
    refine ⟨m.getByte.getByte, ?_, m.getByte_still.trans m.getByte.getByte_still,
      by rw [getByte_rx, hrx₁]; rfl⟩
    rw [response]
    simp only [if_neg h0, h3, if_neg hne, if_neg hne', ne_eq, not_true_eq_false, if_false,
      if_pos h0']
  · obtain rfl : x = soh := by simpa using hsoh
    obtain ⟨h0, h3, hrx₁, -, -⟩ := getByte_some_spec hrx
    obtain ⟨h0', -, hrx₂, -, -⟩ := getByte_some_spec hrx₁
    let m₂ : Cpu := { m.getByte.getByte with
      r6 := word (low m.getByte.getByte.r3) (low m.getByte.getByte.r6) }
    have hstill₂ : Still m.getByte.getByte m₂ := ⟨⟨rfl, rfl, rfl, rfl, rfl, rfl⟩, rfl, rfl⟩
    have hrx₂' : m₂.rx = rest := hrx₂
    have h0'' := getByte_pause (m := m₂) (by rw [hrx₂']; exact hp)
    refine ⟨m₂.getByte, ?_, ?_, by rw [getByte_rx, hrx₂']⟩
    · rw [response]
      simp only [if_neg h0, h3, if_neg hne, if_neg hne', ne_eq, not_true_eq_false, if_false,
        if_neg h0']
      exact if_pos h0''
    · exact ((m.getByte_still.trans m.getByte.getByte_still).trans hstill₂).trans m₂.getByte_still
  · simp at hgot
    omega

theorem dispatch_complement (h6 : high m.r6 = a) (h3 : low m.r3 = b) (hab : a ^^^ b ≠ 0xFF) :
    ∃ m', m.dispatch = (.bad, m') ∧ Still m m' ∧ m'.rx = m.rx := by
  have hne : b ^^^ a ≠ 0xFF := by rwa [BitVec.xor_comm]
  rw [dispatch]
  simp only [low_word, h6, h3, if_pos hne]
  exact ⟨_, rfl, ⟨⟨rfl, rfl, rfl, rfl, high_word _ _, rfl⟩, rfl, rfl⟩, rfl⟩

theorem dispatch_new (h6 : high m.r6 = a) (h3 : low m.r3 = b) (hab : a ^^^ b = 0xFF)
    (ha : a = high m.r2) (h4 : 128 ≤ m.r4.toNat) :
    ∃ m', m.dispatch = copy 128 m' ∧ Still m m' ∧ m'.rx = m.rx ∧ m'.r1 = 0 := by
  have hab' : ¬ b ^^^ a ≠ 0xFF := by rw [BitVec.xor_comm, hab]; simp
  have h4' : ¬ m.r4.toNat < 128 := by omega
  rw [dispatch]
  simp only [low_word, h6, h3, if_neg hab', if_pos ha, newBlock, if_neg h4']
  exact ⟨_, rfl, ⟨⟨rfl, rfl, rfl, rfl, high_word _ _, rfl⟩, rfl, rfl⟩, rfl, rfl⟩

theorem dispatch_old (h6 : high m.r6 = a) (h3 : low m.r3 = b) (hab : a ^^^ b = 0xFF)
    (ha : a + 1 = high m.r2) :
    ∃ m', m.dispatch = discard 128 m' ∧ Still m m' ∧ m'.rx = m.rx ∧ m'.r1 = 0 := by
  have hab' : ¬ b ^^^ a ≠ 0xFF := by rw [BitVec.xor_comm, hab]; simp
  have hne : a ≠ high m.r2 := by
    rw [← ha]
    bv_omega
  have hpred : ¬ a ≠ high m.r2 - 1 := by
    rw [← ha, BitVec.add_sub_cancel]
    simp
  rw [dispatch]
  simp only [low_word, h6, h3, if_neg hab', if_neg hne, if_neg hpred]
  exact ⟨_, rfl, ⟨⟨rfl, rfl, rfl, rfl, high_word _ _, rfl⟩, rfl, rfl⟩, rfl, rfl⟩

end Header

end Cpu

end S8000.Serial
