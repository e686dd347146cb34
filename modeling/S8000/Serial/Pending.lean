import S8000.Serial.ExactlyOnce

namespace S8000.Serial

open Foundation Foundation.Bytes

namespace TapeServer

/-- The read of the current sequence number has a payload no longer than what was asked for. -/
def Bounded (s : TapeServer) : Prop :=
  s.sequence ≠ none → ∃ payload count, s.pendingPayload = some payload ∧
    s.pendingCount = some count ∧ payload.length ≤ count

namespace Bounded

variable {t : Tape} {s : TapeServer}

theorem of_none (h : s.sequence = none) : s.Bounded := fun hne ↦ absurd h hne

theorem begin (t : Tape) (s : TapeServer) (sequence : BitVec 32) (n : ℕ) :
    (s.begin t sequence n).Bounded := by
  intro _
  refine ⟨s.readAt t n, n, rfl, rfl, ?_⟩
  rw [readAt, List.length_take]
  exact Nat.min_le_left _ _

theorem transmit (h : s.Bounded) (payload : List Byte) :
    (s.transmit payload).1.server.Bounded := by
  rw [TapeServer.transmit]
  split
  · exact h
  · split
    · exact h
    · exact h

theorem read (h : s.Bounded) (request : List Byte) : (s.read t request).1.server.Bounded := by
  rw [TapeServer.read]
  simp only
  split
  · exact h
  split
  · exact (begin t s _ _).transmit _
  split
  · split
    · exact h
    · exact h.transmit _
  split
  · exact (begin t s.commit _ _).transmit _
  · exact h

theorem handle (h : s.Bounded) (kind : RequestKind) (request : List Byte) :
    (s.handle t kind request).1.server.Bounded := by
  cases kind with
  | openFile =>
    rw [TapeServer.handle, TapeServer.openFile]
    simp only
    split
    · exact h
    · exact of_none rfl
  | legacyRead =>
    rw [TapeServer.handle, TapeServer.legacyRead]
    simp only
    split
    · exact h
    · split
      · exact h
      · exact h
  | read => exact h.read request
  | space =>
    rw [TapeServer.handle, TapeServer.space]
    split
    · exact h
    split
    · exact h
    split
    · exact h
    · exact of_none rfl

theorem command (h : s.Bounded) (b : Byte) : (s.command b).1.server.Bounded := by
  rw [TapeServer.command]
  split
  · exact h
  split
  · split
    · exact h
    · split
      · exact h
      · exact h
  split
  · exact h
  split
  · exact of_none rfl
  · exact h

theorem receive {σ : Session} (h : σ.server.Bounded) (b : Byte) :
    (σ.receive t b).1.server.Bounded := by
  rw [Session.receive]
  split
  · exact h.command b
  · simp only
    split
    · exact h
    · exact h.handle _ _
  · split
    · split
      · exact h
      · exact h
    · split
      · exact h
      · exact h
  · split
    · exact h
    · split
      · exact h
      · exact h
  · split
    · exact h
    · split
      · exact h
      · exact h
  · exact h

/-- Whatever a client has sent. -/
theorem feed {σ : Session} (h : σ.server.Bounded) (bytes : List Byte) :
    (σ.feed t bytes).1.server.Bounded := by
  induction bytes generalizing σ with
  | nil => exact h
  | cons b bytes ih => exact ih (h.receive b)

end Bounded

/-- What a server makes of a read request: it refuses it, stops, or begins a transfer of its
pending payload. -/
theorem feed_read_cases {t : Tape} {s : TapeServer} (hs : s.Bounded) (hfile : s.fileNumber ≠ none)
    (hlegacy : ¬ s.legacy) (sequence : BitVec 32) (count : Word) (check : Byte) {σ : Session}
    {out : List Byte}
    (h : Session.feed t ⟨s, .command⟩ (Request.read sequence count check).bytes = (σ, out)) :
    (σ.waiting = .command ∧ out = [can]) ∨ (σ.waiting = .stopped ∧ out = []) ∨
      ∃ payload, σ.server.pendingPayload = some payload ∧ payload.length ≤ count.toNat ∧
        payload.length % xmodemBlockSize = 0 ∧
        ((payload = [] ∧ σ.waiting = .eot ∧ out = [eot]) ∨
          (payload ≠ [] ∧ σ.waiting = .block payload 0 ∧ out = blockPacket payload 0)) := by
  have htransmit : ∀ (s' : TapeServer) (payload : List Byte), s'.pendingPayload = some payload →
      payload.length ≤ count.toNat → s'.transmit payload = (σ, out) →
      (σ.waiting = .command ∧ out = [can]) ∨ (σ.waiting = .stopped ∧ out = []) ∨
        ∃ payload, σ.server.pendingPayload = some payload ∧ payload.length ≤ count.toNat ∧
          payload.length % xmodemBlockSize = 0 ∧
          ((payload = [] ∧ σ.waiting = .eot ∧ out = [eot]) ∨
            (payload ≠ [] ∧ σ.waiting = .block payload 0 ∧ out = blockPacket payload 0)) := by
    intro s' payload hp hlen htr
    rw [transmit] at htr
    split at htr
    · cases htr
      exact .inr (.inl ⟨rfl, rfl⟩)
    rename_i hmod
    split at htr
    · rename_i hnil
      cases htr
      exact .inr (.inr ⟨payload, hp, hlen, not_not.mp hmod, .inl ⟨hnil, rfl, rfl⟩⟩)
    · rename_i hnil
      cases htr
      exact .inr (.inr ⟨payload, hp, hlen, not_not.mp hmod, .inr ⟨hnil, rfl, rfl⟩⟩)
  have hread : ∀ s' : TapeServer, (s'.readAt t count.toNat).length ≤ count.toNat := by
    intro s'
    rw [readAt, List.length_take]
    exact Nat.min_le_left _ _
  rw [feed_read t hfile hlegacy, read_eq] at h
  split at h
  · cases h
    exact .inl ⟨rfl, rfl⟩
  split at h
  · exact htransmit _ _ rfl (hread s) h
  split at h
  · split at h
    · cases h
      exact .inl ⟨rfl, rfl⟩
    · rename_i hcount
      obtain ⟨payload, c, hp, hc, hlen⟩ := hs (by simp_all)
      rw [not_not.mp hcount] at hc
      obtain rfl := Option.some.inj hc
      rw [hp] at h
      exact htransmit s payload hp hlen h
  split at h
  · exact htransmit _ _ rfl (hread s.commit) h
  · cases h
    exact .inl ⟨rfl, rfl⟩

end TapeServer

end S8000.Serial
