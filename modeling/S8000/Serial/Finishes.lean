import S8000.Serial.Answered
import S8000.Serial.Strategy
import Mathlib.Logic.Relation

namespace S8000.Serial.Zeus

open Foundation Foundation.Bytes Cpu

section Rounds

/-- `.Lresponse` over and over, until the call returns. -/
def rounds : ℕ → Cpu → Option Word × Cpu
  | 0, m => (none, m)
  | n + 1, m =>
    match round m with
    | (none, m) => rounds n m
    | (some w, m) => (some w, m)

/-- `_ctstrategy`. -/
def strategy (n : ℕ) (m : Cpu) : Option Word × Cpu :=
  match ctStrategy m with
  | (none, m) => rounds n m
  | (some w, m) => (some w, m)

/-- One round after another. -/
def Later : Cpu → Cpu → Prop := Relation.ReflTransGen fun m m' ↦ round m = (none, m')

/-- The states at `.Lresponse`. -/
def Entered (m s : Cpu) : Prop := ∃ s₀, ctStrategy m = (none, s₀) ∧ Later s₀ s

/-- The count of the request. -/
def countOf (m : Cpu) : Word := m.mem.readWord (m.r7 + iCc)

/-- A data byte of the block that arrives is stored into the count. -/
def OverwritesCount (m : Cpu) : Prop := m.StoresAt (m.r7 + iCc) ∨ m.StoresAt (m.r7 + iCc + 1)

end Rounds

section Round

/-- How a round goes on, or how the call returns. -/
inductive Ends (m m' : Cpu) : Option Word → Prop
  | taken : 128 ≤ m.r4.toNat → m'.r4 = m.r4 - 128 → high m'.r3 = 0 → m'.tx = m.tx ++ [ack] → Ends m m' none
  | repeated : m'.r4 = m.r4 → high m'.r3 = 0 → m'.tx = m.tx ++ [ack] → Ends m m' none
  | refused : m'.r4 = m.r4 → (high m'.r3).toNat = (high m.r3).toNat + 1 → (high m'.r3).toNat ≤ 10 →
      m'.tx = m.tx ++ [nak] → Ends m m' none
  | finished : m'.tx = m.tx ++ [ack] → Ends m m' (some (countOf m' - m.r4))
  | gaveUp : m'.tx = m.tx → Ends m m' (some 0xFFFF)

/-- What a round does, whatever arrives. -/
structure Turned (m : Cpu) (out : Option Word) (m' : Cpu) : Prop where
  rx : m'.rx <:+ m.rx.tail
  r7 : m'.r7 = m.r7
  count : ¬ OverwritesCount m → countOf m' = countOf m
  ends : Ends m m' out

theorem drain_rx_suffix (m : Cpu) : m.drain.rx <:+ m.rx := by
  fun_induction Cpu.drain m with
  | case1 m h =>
    rw [getByte_rx]
    exact List.tail_suffix _
  | case2 m h ih =>
    rw [getByte_rx] at ih
    exact ih.trans (List.tail_suffix _)

variable {m m' : Cpu} {e : Exit}

theorem countOf_answered (h : Cpu.Answered m e m') (hcount : ¬ OverwritesCount m) : countOf m' = countOf m := by
  obtain ⟨hhigh, hlow⟩ := not_or.mp hcount
  rw [countOf, countOf, Memory.readWord, Memory.readWord, h.r7, h.mem _ hhigh, h.mem _ hlow]

/-- An error: the driver has asked ten times, or asks again. -/
theorem bad_any (m : Cpu) (h3 : (high m.r3).toNat ≤ 10) :
    ∃ out m', bad m = (out, m') ∧ m'.rx <:+ m.rx ∧ m'.r7 = m.r7 ∧ m'.mem = m.mem ∧
      (out = some 0xFFFF ∧ m'.tx = m.tx ∨
        out = none ∧ m'.r4 = m.r4 ∧ (high m'.r3).toNat = (high m.r3).toNat + 1 ∧ (high m'.r3).toNat ≤ 10 ∧
          m'.tx = m.tx ++ [nak]) := by
  have hsucc : (high m.r3 + 1).toNat = (high m.r3).toNat + 1 := by
    rw [BitVec.toNat_add]
    exact Nat.mod_eq_of_lt (by change (high m.r3).toNat + 1 < 256; omega)
  rw [bad]
  simp only [high_word]
  split
  · exact ⟨_, _, rfl, List.suffix_refl _, rfl, rfl, .inl ⟨rfl, rfl⟩⟩
  · rename_i hten
    set m₁ : Cpu := { m with r3 := word (high m.r3 + 1) (low m.r3) } with hm₁
    have hstill := m₁.drain_still
    have hrh3 : (high (m₁.drain.putByte nak).r3).toNat = (high m.r3).toNat + 1 := by
      rw [← hsucc]
      exact congrArg BitVec.toNat (hstill.rh3.trans (high_word _ _))
    refine ⟨_, _, rfl, drain_rx_suffix m₁, hstill.r7, hstill.mem, .inr ⟨rfl, hstill.r4, hrh3, ?_, ?_⟩⟩
    · rw [hrh3]
      omega
    · exact congrArg (· ++ [nak]) hstill.tx

/-- One round, whatever arrives. -/
theorem round_turned (m : Cpu) (h3 : (high m.r3).toNat ≤ 10) : ∃ out m', round m = (out, m') ∧ Turned m out m' := by
  obtain ⟨e, m₁, hresponse, h⟩ := response_answered m
  have hcount : ¬ OverwritesCount m → countOf m₁ = countOf m := countOf_answered h
  rw [round, hresponse]
  cases e with
  | bad =>
    have hrh3 : high m₁.r3 = high m.r3 := h.rh3
    have htx : m₁.tx = m.tx := h.tx.trans (List.append_nil _)
    obtain ⟨out, m', hbad, hrx, h7, hmem, hends⟩ := bad_any m₁ (by rw [hrh3]; exact h3)
    refine ⟨out, m', hbad, hrx.trans h.rx, h7.trans h.r7, fun hc ↦ ?_, ?_⟩
    · rw [← hcount hc, countOf, countOf, hmem, h7]
    · rw [h.r4, hrh3, htx] at hends
      rcases hends with ⟨rfl, htx'⟩ | ⟨rfl, h4, hsucc, hten, htx'⟩
      · exact .gaveUp htx'
      · exact .refused h4 hsucc hten htx'
  | eot =>
    have hends : Ends m ({ m₁.putByte ack with r2 := countOf m₁ - m₁.r4 } : Cpu) (some (countOf m₁ - m.r4)) :=
      .finished (congrArg (· ++ [ack]) (h.tx.trans (List.append_nil _)))
    rw [← h.r4] at hends
    exact ⟨_, _, rfl, h.rx, h.r7, hcount, hends⟩
  | error => exact ⟨_, _, rfl, h.rx, h.r7, hcount, .gaveUp (h.tx.trans (List.append_nil _))⟩
  | valid =>
    refine ⟨_, _, rfl, h.rx, h.r7, hcount, .taken (h.room rfl) (congrArg (· - 128) h.r4) (high_word _ _) ?_⟩
    exact congrArg (· ++ [ack]) (h.tx.trans (List.append_nil _))
  | duplicate => exact ⟨_, _, rfl, h.rx, h.r7, hcount, .repeated h.r4 h.rh3 h.tx⟩

/-- On a silent line a round that goes on has counted an error. -/
theorem round_silence (hrx : m.rx = []) (h3 : (high m.r3).toNat ≤ 10) (h : round m = (none, m')) :
    m'.rx = [] ∧ (high m'.r3).toNat = (high m.r3).toNat + 1 := by
  obtain ⟨m₁, hresponse, hstill, hnil⟩ := response_silence hrx
  obtain ⟨out, m₂, hbad, hsuffix, -, -, hends⟩ := bad_any m₁ (by rw [hstill.rh3]; exact h3)
  rw [round, hresponse] at h
  obtain ⟨rfl, rfl⟩ := Prod.mk.inj (hbad.symm.trans h)
  rw [hnil, List.suffix_nil] at hsuffix
  rcases hends with ⟨hout, -⟩ | ⟨-, -, hsucc, -⟩
  · cases hout
  · exact ⟨hsuffix, by rw [hsucc, hstill.rh3]⟩

end Round

section Measure

variable {m m' : Cpu}

/-- How many more rounds there can be: input is used up, or the errors are counted. -/
def turnsLeft (m : Cpu) : ℕ := if m.rx = [] then 11 - (high m.r3).toNat else m.rx.length + 11

theorem turnsLeft_le (m : Cpu) : turnsLeft m ≤ m.rx.length + 11 := by
  rw [turnsLeft]
  split
  · omega
  · exact le_rfl

theorem Ends.errors {out : Option Word} (h : Ends m m' out) (hout : out = none) : (high m'.r3).toNat ≤ 10 := by
  cases h with
  | taken _ _ h3 _ => rw [h3]; decide
  | repeated _ h3 _ => rw [h3]; decide
  | refused _ _ hten _ => exact hten
  | finished _ => cases hout
  | gaveUp _ => cases hout

theorem turnsLeft_round (h3 : (high m.r3).toNat ≤ 10) (h : round m = (none, m')) : turnsLeft m' < turnsLeft m := by
  by_cases hrx : m.rx = []
  · obtain ⟨hnil, hsucc⟩ := round_silence hrx h3 h
    rw [turnsLeft, turnsLeft, if_pos hnil, if_pos hrx]
    omega
  · obtain ⟨out, m₁, hround, hturned⟩ := round_turned m h3
    obtain ⟨rfl, rfl⟩ := Prod.mk.inj (hround.symm.trans h)
    have hlen := hturned.rx.length_le
    have hpos := List.length_pos_iff.mpr hrx
    have hle := turnsLeft_le m₁
    have heq : turnsLeft m = m.rx.length + 11 := if_neg hrx
    rw [List.length_tail] at hlen
    omega

end Measure

section Patience

/-- Responses of which at most `k`, and after each acknowledgement at most ten, ask again in a row. -/
def Patient : ℕ → List Byte → Prop
  | _, [] => True
  | k, b :: s => b = ack ∧ Patient 10 s ∨ b = nak ∧ 0 < k ∧ Patient (k - 1) s

theorem Patient.mem {k : ℕ} {s : List Byte} (h : Patient k s) : ∀ b ∈ s, b = ack ∨ b = nak := by
  induction s generalizing k with
  | nil => exact fun b hb ↦ absurd hb List.not_mem_nil
  | cons b s ih =>
    rcases h with ⟨rfl, h⟩ | ⟨rfl, -, h⟩
    · exact List.forall_mem_cons.mpr ⟨.inl rfl, ih h⟩
    · exact List.forall_mem_cons.mpr ⟨.inr rfl, ih h⟩

theorem Patient.length_le {k : ℕ} {l s : List Byte} (h : Patient k (l ++ s)) (hack : ack ∉ l) : l.length ≤ k := by
  induction l generalizing k with
  | nil => exact Nat.zero_le k
  | cons b l ih =>
    obtain ⟨hb, hl⟩ := not_or.mp (List.mem_cons.not.mp hack)
    rcases h with ⟨heq, -⟩ | ⟨-, hpos, h⟩
    · exact absurd heq.symm hb
    · have hle := ih h hl
      rw [List.length_cons]
      omega

theorem Patient.drop {k : ℕ} {l s : List Byte} (h : Patient k (l ++ s)) (hk : k ≤ 10) : ∃ k' ≤ 10, Patient k' s := by
  induction l generalizing k with
  | nil => exact ⟨k, hk, h⟩
  | cons b l ih =>
    rcases h with ⟨-, h⟩ | ⟨-, -, h⟩
    · exact ih h le_rfl
    · exact ih h (by omega)

/-- At most ten requests to retransmit stand between two acknowledgements. -/
theorem Patient.naks {s l : List Byte} (h : Patient 10 s) (hl : l <:+: s) (hack : ack ∉ l) : l.length ≤ 10 := by
  obtain ⟨p, q, rfl⟩ := hl
  rw [List.append_assoc] at h
  obtain ⟨k, hk, h⟩ := h.drop le_rfl
  exact (h.length_le hack).trans hk

end Patience

section Result

/-- The result of a call that was asked for `count` bytes. -/
def Sensible (count w : Word) : Prop := w = 0xFFFF ∨ 128 ∣ w.toNat ∧ w.toNat ≤ count.toNat

/-- The room that is left is a multiple of a block. -/
structure Whole (count r4 : Word) : Prop where
  blocks : 128 ∣ count.toNat
  room : 128 ∣ r4.toNat
  le : r4.toNat ≤ count.toNat

theorem Whole.sensible {count r4 : Word} (h : Whole count r4) : Sensible count (count - r4) := by
  have hsub : (count - r4).toNat = count.toNat - r4.toNat := BitVec.toNat_sub_of_le h.le
  refine .inr ⟨?_, ?_⟩
  · rw [hsub]
    exact Nat.dvd_sub h.blocks h.room
  · rw [hsub]
    exact Nat.sub_le _ _

theorem Whole.take {count r4 : Word} (h : Whole count r4) (hroom : 128 ≤ r4.toNat) : Whole count (r4 - 128) := by
  have hsub : (r4 - 128).toNat = r4.toNat - 128 := BitVec.toNat_sub_of_le hroom
  refine ⟨h.blocks, ?_, ?_⟩
  · rw [hsub]
    exact Nat.dvd_sub h.room (Nat.dvd_refl 128)
  · rw [hsub]
    exact (Nat.sub_le _ _).trans h.le

/-- From every state at `.Lresponse` the call returns. -/
theorem rounds_return (m : Cpu) (h3 : (high m.r3).toNat ≤ 10) :
    ∃ w m' s, (∀ n, turnsLeft m ≤ n → rounds n m = (some w, m')) ∧ m'.tx = m.tx ++ s ∧
      Patient (10 - (high m.r3).toNat) s ∧
      (Whole (countOf m) m.r4 → (∀ t, Later m t → ¬ OverwritesCount t) → Sensible (countOf m) w) := by
  induction hk : turnsLeft m using Nat.strong_induction_on generalizing m with
  | h k ih =>
    obtain ⟨out, m₁, hround, h⟩ := round_turned m h3
    have hpos : 0 < turnsLeft m := by
      rw [turnsLeft]
      split
      · omega
      · omega
    cases out with
    | some w =>
      have hrounds : ∀ n, turnsLeft m ≤ n → rounds n m = (some w, m₁) := by
        intro n hn
        obtain ⟨n, rfl⟩ := Nat.exists_eq_succ_of_ne_zero (show n ≠ 0 by omega)
        rw [rounds, hround]
      subst hk
      cases hends : h.ends with
      | finished htx =>
        refine ⟨_, m₁, [ack], hrounds, htx, .inl ⟨rfl, trivial⟩, fun hwhole hclean ↦ ?_⟩
        rw [h.count (hclean m .refl)]
        exact hwhole.sensible
      | gaveUp htx =>
        exact ⟨_, m₁, [], hrounds, by rw [htx, List.append_nil], trivial, fun _ _ ↦ .inl rfl⟩
    | none =>
      have hlt := turnsLeft_round h3 hround
      obtain ⟨w, m', s, hrounds, htx', hpatient, hsensible⟩ := ih _ (hk ▸ hlt) m₁ (h.ends.errors rfl) rfl
      have hrounds' : ∀ n, k ≤ n → rounds n m = (some w, m') := by
        intro n hn
        obtain ⟨n, rfl⟩ := Nat.exists_eq_succ_of_ne_zero (show n ≠ 0 by omega)
        rw [rounds, hround]
        exact hrounds n (by omega)
      have hresult : Whole (countOf m) m₁.r4 → (∀ t, Later m t → ¬ OverwritesCount t) → Sensible (countOf m) w := by
        intro hwhole hclean
        have hcount := h.count (hclean m .refl)
        rw [← hcount] at hwhole ⊢
        exact hsensible hwhole fun t ht ↦ hclean t (.head hround ht)
      cases h.ends with
      | taken hroom h4 h0 htx =>
        refine ⟨w, m', ack :: s, hrounds', by rw [htx', htx, List.append_assoc]; rfl, .inl ⟨rfl, ?_⟩, fun hwhole ↦
          hresult ?_⟩
        · rw [h0] at hpatient
          exact hpatient
        · rw [h4]
          exact hwhole.take hroom
      | repeated h4 h0 htx =>
        refine ⟨w, m', ack :: s, hrounds', by rw [htx', htx, List.append_assoc]; rfl, .inl ⟨rfl, ?_⟩, fun hwhole ↦
          hresult (h4 ▸ hwhole)⟩
        rw [h0] at hpatient
        exact hpatient
      | refused h4 hsucc hten htx =>
        refine ⟨w, m', nak :: s, hrounds', by rw [htx', htx, List.append_assoc]; rfl, .inr ⟨rfl, by omega, ?_⟩,
          fun hwhole ↦ hresult (h4 ▸ hwhole)⟩
        rw [hsucc] at hpatient
        exact hpatient

theorem strategy_start {m : Cpu} (h6 : m.r6 = 1) : ctStrategy m = (none, strategyBody m) := if_pos h6

end Result

section Example

/-- A request that nobody answers. -/
def unanswered : Cpu where
  r6 := 1
  r7 := 0x1000
  mem := Memory.writeWord (fun _ ↦ 0) 0x1064 0x0080

/-- 128 bytes of data. -/
def ones : List Byte := List.replicate 128 1

theorem length_ones : ones.length = 128 := List.length_replicate

/-- A request for one block into the 128 bytes before its own block. The remainder of the first transmission is
lost, and the second arrives. -/
def overrun : Cpu where
  r6 := 1
  r7 := 0x1000
  mem := (Memory.writeWord (fun _ ↦ 0) 0x1062 0x0F80).writeWord 0x1064 0x0080
  rx := some soh :: some 1 :: some (0xFF ^^^ 1) :: (ones.map some ++ none :: none ::
    some soh :: some 1 :: some (0xFF ^^^ 1) :: (ones.map some ++
      some (high (crc16Xmodem ones)) :: some (low (crc16Xmodem ones)) :: [some Serial.eot]))

theorem overrun_rest {m : Cpu} (hrx : m.rx = some soh :: some 1 :: some (0xFF ^^^ 1) :: (ones.map some ++
      some (high (crc16Xmodem ones)) :: some (low (crc16Xmodem ones)) :: [some Serial.eot]))
    (h4 : m.r4 = 0x80) (h5 : m.r5 = 0x1000) (h7 : m.r7 = 0x1000) (h2 : high m.r2 = 1) (n : ℕ) :
    (rounds (n + 2) m).1 = some 0x101 := by
  obtain ⟨m₁, hresponse, hframe, hrx₁, hmem₁, -, hcrc⟩ := response_stores length_ones hrx h2.symm
    (by rw [h4]; decide)
  rw [← hcrc] at hrx₁
  obtain ⟨m₂, hcheck, hstill, hrx₂⟩ := checkCrc_good (k := fun m ↦ (.valid, m)) hrx₁
  have hround : round m = (none, { m₂.putByte ack with
      r2 := word (high (m₂.putByte ack).r2 + 1) (low (m₂.putByte ack).r2)
      r3 := word 0 (low (m₂.putByte ack).r3)
      r4 := (m₂.putByte ack).r4 - 128 }) := by
    rw [round, hresponse.trans hcheck]
  rw [rounds, hround]
  dsimp only
  rw [rounds, round]
  obtain ⟨m₃, heot, hstill₃, -⟩ := response_eot (show Cpu.rx { m₂.putByte ack with
      r2 := word (high (m₂.putByte ack).r2 + 1) (low (m₂.putByte ack).r2)
      r3 := word 0 (low (m₂.putByte ack).r3)
      r4 := (m₂.putByte ack).r4 - 128 } = [some Serial.eot] from hrx₂)
  rw [heot]
  have hr4 : m₃.r4 = 0 := by
    have h : m₃.r4 = m₂.r4 - 128 := hstill₃.r4
    rw [h, hstill.r4, hframe.r4, h4]
    rfl
  have hr7 : m₃.r7 = 0x1000 := by
    have h : m₃.r7 = m₂.r7 := hstill₃.r7
    rw [h, hstill.r7, hframe.r7, h7]
  have hmem : m₃.mem = m.mem.storeList 0x1000 ones := by
    have h : m₃.mem = m₂.mem := hstill₃.mem
    rw [h, hstill.mem, hmem₁, h5]
  -- the count lies in the block that has been stored
  have hone : ∀ i < 128, m.mem.storeList 0x1000 ones (0x1000 + BitVec.ofNat 16 i) = 1 := by
    intro i hi
    have hlen := length_ones
    rw [Memory.storeList_add _ _ _ (by omega) (by omega), List.getD_eq_getElem _ _ (by omega)]
    exact List.getElem_replicate _
  have hword : (m.mem.storeList 0x1000 ones).readWord 0x1064 = 0x101 := by
    have hhigh := hone 0x64 (by decide)
    have hlow := hone 0x65 (by decide)
    rw [Memory.readWord]
    exact congrArg₂ word hhigh hlow
  have hresult : (m₃.putByte ack).mem.readWord ((m₃.putByte ack).r7 + iCc) - (m₃.putByte ack).r4 = 0x101 := by
    change m₃.mem.readWord (m₃.r7 + iCc) - m₃.r4 = 0x101
    have haddr : (0x1000 : Word) + iCc = 0x1064 := by decide
    rw [hmem, hr7, hr4, haddr, hword]
    rfl
  exact congrArg some hresult

theorem overrun_first :
    ∃ m, round (strategyBody overrun) = (none, m) ∧ m.rx = some soh :: some 1 :: some (0xFF ^^^ 1) :: (ones.map some ++
        some (high (crc16Xmodem ones)) :: some (low (crc16Xmodem ones)) :: [some Serial.eot]) ∧
      m.r4 = 0x80 ∧ m.r5 = 0x1000 ∧ m.r7 = 0x1000 ∧ high m.r2 = 1 := by
  have hr4 : (strategyBody overrun).r4 = 0x80 := by decide
  have hr5 : (strategyBody overrun).r5 = 0x0F80 := by decide
  have hrh2 : high (strategyBody overrun).r2 = 1 := high_word _ _
  have hrh3 : high (strategyBody overrun).r3 = 0 := high_word _ _
  obtain ⟨m₁, hresponse, hframe₁, hrx₁, -, hr5₁, -⟩ := response_stores length_ones
    (show (strategyBody overrun).rx = _ from rfl) hrh2.symm (by rw [hr4]; decide)
  obtain ⟨m₂, hcheck, hstill₂, hrx₂⟩ := checkCrc_pause (k := fun m ↦ (.valid, m))
    (show m₁.rx = [].map some ++ _ from hrx₁) trivial (.inl rfl)
  have hframe := hframe₁.trans hstill₂.toFrame
  have hten : ¬ 10 < (high m₂.r3 + 1).toNat := by
    rw [hframe.rh3, hrh3]
    decide
  set m₃ : Cpu := { m₂ with r3 := word (high m₂.r3 + 1) (low m₂.r3) } with hm₃
  have hdrain : m₃.drain = m₃.getByte := by
    rw [Cpu.drain, dif_pos]
    exact getByte_pause (by rw [show m₃.rx = _ from hrx₂]; trivial)
  have hbad : bad m₂ = (none, m₃.getByte.putByte nak) := by
    rw [bad, ← hdrain]
    simp only [high_word, if_neg hten, hm₃]
  have hstill₃ := m₃.getByte_still
  refine ⟨m₃.getByte.putByte nak, by rw [round, hresponse.trans hcheck]; exact hbad, ?_, ?_, ?_, ?_, ?_⟩
  · change m₃.getByte.rx = _
    rw [getByte_rx, show m₃.rx = _ from hrx₂]
    rfl
  · exact (hstill₃.r4.trans hframe.r4).trans hr4
  · have h : m₃.getByte.r5 = m₂.r5 := hstill₃.r5
    change m₃.getByte.r5 = _
    rw [h, hstill₂.r5, hr5₁, hr5]
    rfl
  · exact (hstill₃.r7.trans hframe.r7).trans rfl
  · have h : high m₃.getByte.r2 = high m₂.r2 := hstill₃.rh2
    change high (word (high m₃.getByte.r2) _) = _
    rw [high_word, h, hframe.rh2, hrh2]

end Example

end S8000.Serial.Zeus
