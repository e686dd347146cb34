import S8000.Sadie.Driver
import S8000.Serial.Damage

namespace S8000.Sadie

open Foundation Foundation.Bytes Serial

section Fields

variable {m m' : Cpu} {j k : Word}

/-- Words of one frame that do not overlap. -/
theorem readWord_writeWord_frame (mem : Memory) (fp v : Word) (h : 2 ≤ (k - j).toNat)
    (h' : 2 ≤ (j - k).toNat) :
    (mem.writeWord (fp + j) v).readWord (fp + k) = mem.readWord (fp + k) := by
  have hkj : fp + k - (fp + j) = k - j := by bv_omega
  have hjk : fp + j - (fp + k) = j - k := by bv_omega
  exact Memory.readWord_writeWord_of_apart _ v (by rwa [hkj]) (by rwa [hjk])

/-- A word of the frame and one outside of it. -/
theorem readWord_writeWord_outside (mem : Memory) {fp ptr : Word} (v : Word)
    (hptr : 0x9E ≤ (ptr - fp).toNat) (hk : 0x80 ≤ k.toNat) (hk' : k.toNat ≤ 0x9C) :
    (mem.writeWord ptr v).readWord (fp + k) = mem.readWord (fp + k) := by
  apply Memory.readWord_writeWord_of_apart
  · bv_omega
  · bv_omega

/-- The words of the frame that a read keeps its counters in. -/
structure Locals where
  destSeg : Word
  destOff : Word
  remaining : Word
  countPtr : Word
  recordsLeft : Word
  total : Word
  recordLeft : Word

def locals (m : Cpu) : Locals where
  destSeg := field m destSeg
  destOff := field m destOff
  remaining := field m remaining
  countPtr := field m countPtr
  recordsLeft := field m recordsLeft
  total := field m total
  recordLeft := field m recordLeft

theorem field_congr (h15 : m'.r15 = m.r15)
    (hmem : ∀ x : Word, 128 ≤ (x - m.r15).toNat → m'.mem x = m.mem x) (hk : 128 ≤ k.toNat)
    (hk' : k.toNat < 65535) : field m' k = field m k := by
  have h0 : m.r15 + k - m.r15 = k := by bv_omega
  have h1 : (m.r15 + k + 1 - m.r15).toNat = k.toNat + 1 := by bv_omega
  rw [field, field, h15]
  exact Memory.readWord_congr (hmem _ (by rwa [h0])) (hmem _ (by omega))

/-- The packet buffer is apart from the counters. -/
theorem locals_congr (h15 : m'.r15 = m.r15)
    (hmem : ∀ x : Word, 128 ≤ (x - m.r15).toNat → m'.mem x = m.mem x) : locals m' = locals m := by
  rw [locals, locals, field_congr h15 hmem (k := destSeg) (by decide) (by decide),
    field_congr h15 hmem (k := destOff) (by decide) (by decide),
    field_congr h15 hmem (k := remaining) (by decide) (by decide),
    field_congr h15 hmem (k := countPtr) (by decide) (by decide),
    field_congr h15 hmem (k := recordsLeft) (by decide) (by decide),
    field_congr h15 hmem (k := total) (by decide) (by decide),
    field_congr h15 hmem (k := recordLeft) (by decide) (by decide)]

theorem locals_of_mem_eq (h15 : m'.r15 = m.r15) (hmem : m'.mem = m.mem) : locals m' = locals m :=
  locals_congr h15 fun x _ ↦ congrFun hmem x

theorem locals_setField_recordsLeft (m : Cpu) (v : Word) :
    locals (setField m recordsLeft v) = { locals m with recordsLeft := v } := by
  simp (disch := decide) only [locals, field, setField, Memory.readWord_writeWord,
    readWord_writeWord_frame]

/-- The counters that a read starts with. -/
theorem locals_enterFrame (m : Cpu) (hptr : 0x9E ≤ (m.r4 - (m.r15 - readFrame)).toNat) :
    ∃ left, locals (enterFrame m) =
      { destSeg := m.r7, destOff := m.r6, remaining := m.r5, countPtr := m.r4, recordsLeft := m.r3,
        total := 0, recordLeft := left } := by
  refine ⟨(locals (enterFrame m)).recordLeft, ?_⟩
  simp (disch := first | exact hptr | decide) only [enterFrame, locals, field, setField,
    readWord_writeWord_outside, Memory.readWord_writeWord, readWord_writeWord_frame]

/-- The counters after a block of `r4` bytes. -/
theorem locals_packetCount (m : Cpu) :
    locals (packetCount m) =
      { locals m with
        destSeg := if 65536 ≤ (locals m).destOff.toNat + m.r4.toNat then (locals m).destSeg + 1
          else (locals m).destSeg
        destOff := (locals m).destOff + m.r4
        remaining := (locals m).remaining - m.r4
        total := (locals m).total + m.r4
        recordLeft := (locals m).recordLeft - m.r4 } := by
  by_cases h : 65536 ≤ (locals m).destOff.toNat + m.r4.toNat
  · have h' : 65536 ≤ (m.mem.readWord (m.r15 + destOff)).toNat + m.r4.toNat := h
    rw [if_pos h]
    simp (disch := decide) only [packetCount, locals, field, setField, if_pos h',
      Memory.readWord_writeWord, readWord_writeWord_frame]
  · have h' : ¬ 65536 ≤ (m.mem.readWord (m.r15 + destOff)).toNat + m.r4.toNat := h
    rw [if_neg h]
    simp (disch := decide) only [packetCount, locals, field, setField, if_neg h',
      Memory.readWord_writeWord, readWord_writeWord_frame]

/-- What else is in the registers after the counting. -/
theorem packetCount_frame (m : Cpu) :
    (packetCount m).r15 = m.r15 ∧ (packetCount m).r2 = m.r2 ∧ (packetCount m).rx = m.rx ∧
      (packetCount m).tx = m.tx := by
  simp only [packetCount, setField]
  split <;> exact ⟨rfl, rfl, rfl, rfl⟩

end Fields

/-- The bytes from an address on. -/
def readBytes (mem : Memory) (a : Word) : ℕ → List Byte
  | 0 => []
  | n + 1 => mem a :: readBytes mem (a + 1) n

theorem readBytes_storeList (mem : Memory) (a : Word) (bytes : List Byte)
    (hlen : bytes.length ≤ 65536) {n : ℕ} (hn : n ≤ bytes.length) :
    readBytes (mem.storeList a bytes) a n = bytes.take n := by
  have hread : ∀ n i, n + i ≤ bytes.length →
      readBytes (mem.storeList a bytes) (a + BitVec.ofNat 16 i) n = (bytes.drop i).take n := by
    intro n
    induction n with
    | zero => intro i _; rfl
    | succ n ih =>
      intro i hi
      have hnext : a + BitVec.ofNat 16 i + 1 = a + BitVec.ofNat 16 (i + 1) := by
        rw [BitVec.ofNat_add, BitVec.add_assoc]
        rfl
      rw [readBytes, hnext, ih (i + 1) (by omega), Memory.storeList_add _ _ _ hlen (by omega),
        List.drop_eq_getElem_cons (by omega : i < bytes.length), List.take_succ_cons,
        List.getD_eq_getElem]
  simpa using hread n 0 (by omega)

/-- The bytes that the loop has copied, and what it has left alone. -/
theorem physicalByte_spec (n : ℕ) (M : Machine) :
    (physicalByte n M).phys =
        Function.update M.phys (segment M.cpu.r6)
          ((M.phys (segment M.cpu.r6)).storeList M.cpu.r7 (readBytes M.cpu.mem M.cpu.r5 n)) ∧
      (physicalByte n M).cpu.mem = M.cpu.mem ∧ (physicalByte n M).cpu.r15 = M.cpu.r15 ∧
      (physicalByte n M).cpu.r4 = M.cpu.r4 ∧ (physicalByte n M).cpu.r2 = M.cpu.r2 ∧
      (physicalByte n M).cpu.rx = M.cpu.rx ∧ (physicalByte n M).cpu.tx = M.cpu.tx := by
  induction n generalizing M with
  | zero => exact ⟨(Function.update_eq_self _ _).symm, rfl, rfl, rfl, rfl, rfl, rfl⟩
  | succ n ih =>
    rw [physicalByte]
    obtain ⟨hphys, hmem, h15, h4, h2, hrx, htx⟩ := ih _
    refine ⟨?_, hmem, h15, h4, h2, hrx, htx⟩
    rw [hphys]
    simp only [Function.update_self, Function.update_idem, low_word, readBytes, Memory.storeList]

end S8000.Sadie
