import Mathlib.Data.Set.Defs

/-! Programs of commands that are answered by a state, what they ensure, and the programs of a state that simulates
another. -/

namespace S8000.Foundation

section Programs

variable {C : Type} {A : C → Type} {α β : Type}

/-- A program gives a value, or issues a command and goes on with its answer. -/
inductive Prog (C : Type) (A : C → Type) (α : Type)
  | ret (a : α)
  | call (c : C) (k : A c → Prog C A α)

def Prog.bind : Prog C A α → (α → Prog C A β) → Prog C A β
  | .ret a, f => f a
  | .call c k, f => .call c fun x ↦ (k x).bind f

instance : Monad (Prog C A) where
  pure := .ret
  bind := .bind

def Prog.cmd (c : C) : Prog C A (A c) := .call c .ret

end Programs

section Executions

variable {C : Type} {A : C → Type} {α β : Type} {σ τ : Type*} {step : σ → (c : C) → A c → σ → Prop}
  {step' : τ → (c : C) → A c → τ → Prop} {s t u : σ} {a : α} {b : β}

/-- The executions of a program from a state, where a command has the answers and the effects that a step has. -/
inductive Exec (step : σ → (c : C) → A c → σ → Prop) : σ → Prog C A α → α → σ → Prop
  | ret (s : σ) (a : α) : Exec step s (.ret a) a s
  | call {s t u : σ} {c : C} {x : A c} {k : A c → Prog C A α} {a : α} (h : step s c x t) (hk : Exec step t (k x) a u) :
      Exec step s (.call c k) a u

theorem exec_pure (s t : σ) (a a' : α) : Exec step s (pure a : Prog C A α) a' t ↔ a' = a ∧ t = s := by
  constructor
  · intro h
    cases h
    exact ⟨rfl, rfl⟩
  · rintro ⟨rfl, rfl⟩
    exact .ret t a'

theorem exec_cmd (c : C) (x : A c) : Exec step s (.cmd c) x t ↔ step s c x t := by
  constructor
  · intro h
    cases h with
    | call hstep hk =>
      cases hk
      exact hstep
  · exact fun hstep ↦ .call hstep (.ret t x)

theorem exec_bind {p : Prog C A α} {f : α → Prog C A β} :
    Exec step s (p >>= f) b u ↔ ∃ a t, Exec step s p a t ∧ Exec step t (f a) b u := by
  constructor
  · intro h
    change Exec step s (p.bind f) b u at h
    induction p generalizing s with
    | ret a => exact ⟨a, s, .ret s a, h⟩
    | call c k ih =>
      cases h with
      | call hstep hk =>
        obtain ⟨a, t, hfirst, hrest⟩ := ih _ hk
        exact ⟨a, t, .call hstep hfirst, hrest⟩
  · rintro ⟨a, t, hfirst, hrest⟩
    change Exec step s (p.bind f) b u
    induction hfirst with
    | ret s a => exact hrest
    | call hstep _ ih => exact .call hstep (ih hrest)

/-- A relation that every command keeps takes executions to executions with the same value. -/
theorem Exec.simulate {r : σ → τ → Prop} {p : Prog C A α} {s' : τ} (h : Exec step s p a t) (hstart : r s s')
    (hsim : ∀ u u' c x v, r u u' → step u c x v → ∃ v', step' u' c x v' ∧ r v v') :
    ∃ t', Exec step' s' p a t' ∧ r t t' := by
  induction h generalizing s' with
  | ret s a => exact ⟨s', .ret s' a, hstart⟩
  | call hstep _ ih =>
    obtain ⟨v', hstep', hr⟩ := hsim _ _ _ _ _ hstart hstep
    obtain ⟨t', hexec, hr'⟩ := ih hr
    exact ⟨t', .call hstep' hexec, hr'⟩

end Executions

section Ensures

variable {C : Type} {A : C → Type} {α β : Type} {σ : Type*} {step : σ → (c : C) → A c → σ → Prop} {s t : σ} {a : α}

/-- What holds after every execution of a program. -/
def Ensures (step : σ → (c : C) → A c → σ → Prop) (s : σ) (p : Prog C A α) (post : α → σ → Prop) : Prop :=
  ∀ a t, Exec step s p a t → post a t

theorem ensures_pure {post : α → σ → Prop} (h : post a s) : Ensures step s (pure a) post := by
  intro a' t hexec
  obtain ⟨rfl, rfl⟩ := (exec_pure s t a a').mp hexec
  exact h

theorem ensures_cmd {c : C} {post : A c → σ → Prop} (h : ∀ x t, step s c x t → post x t) : Ensures step s (.cmd c) post :=
  fun x t hexec ↦ h x t ((exec_cmd c x).mp hexec)

theorem Ensures.bind {p : Prog C A α} {f : α → Prog C A β} {mid : α → σ → Prop} {post : β → σ → Prop}
    (h : Ensures step s p mid) (hf : ∀ a t, mid a t → Ensures step t (f a) post) : Ensures step s (p >>= f) post := by
  intro b u hexec
  obtain ⟨a, t, hfirst, hrest⟩ := exec_bind.mp hexec
  exact hf a t (h a t hfirst) b u hrest

theorem ensures_cmd_bind {c : C} {f : A c → Prog C A β} {post : β → σ → Prop}
    (h : ∀ x t, step s c x t → Ensures step t (f x) post) : Ensures step s (.cmd c >>= f) post :=
  (ensures_cmd h).bind fun _ _ hpost ↦ hpost

theorem Ensures.mono {p : Prog C A α} {post post' : α → σ → Prop} (h : Ensures step s p post)
    (hmono : ∀ a t, post a t → post' a t) : Ensures step s p post' :=
  fun a t hexec ↦ hmono a t (h a t hexec)

end Ensures

end S8000.Foundation
