import Mathlib.Logic.Basic

namespace WebServer.Process

inductive Result (σ α : Type)
  | returned (a : α) (s : σ)
  | exited (s : σ)
  | unfinished

def Proc (σ α : Type) := σ → Result σ α

variable {σ α β : Type} {x : Proc σ α} {f : α → Proc σ β} {s s' : σ}

def Proc.bind (x : Proc σ α) (f : α → Proc σ β) : Proc σ β := fun s =>
  match x s with
  | .returned a s' => f a s'
  | .exited s' => .exited s'
  | .unfinished => .unfinished

instance : Monad (Proc σ) where
  pure a s := .returned a s
  bind := Proc.bind

@[simp] theorem pure_apply (a : α) (s : σ) : (pure a : Proc σ α) s = .returned a s := rfl

@[simp] theorem bind_apply (x : Proc σ α) (f : α → Proc σ β) (s : σ) :
    (x >>= f) s = match x s with
      | .returned a s' => f a s'
      | .exited s' => .exited s'
      | .unfinished => .unfinished := rfl

/-- From `s` the computation ends: with `Q` where it returns, with `E` where the
process exits. -/
def Proc.Ensures (x : Proc σ α) (s : σ) (Q : α → σ → Prop) (E : σ → Prop) : Prop :=
  match x s with
  | .returned a s' => Q a s'
  | .exited s' => E s'
  | .unfinished => False

variable {Q R : α → σ → Prop} {P : β → σ → Prop} {E F : σ → Prop} {a : α}

theorem Proc.Ensures.returned (h : x.Ensures s Q E) (hx : x s = .returned a s') : Q a s' := by
  rw [Proc.Ensures, hx] at h
  exact h

theorem Proc.Ensures.exited (h : x.Ensures s Q E) (hx : x s = .exited s') : E s' := by
  rw [Proc.Ensures, hx] at h
  exact h

theorem Proc.Ensures.finished (h : x.Ensures s Q E) : x s ≠ .unfinished := by
  intro hx
  rw [Proc.Ensures, hx] at h
  exact h

theorem Proc.Ensures.returns (h : x.Ensures s Q E) (hE : ∀ s', ¬ E s') :
    ∃ a s', x s = .returned a s' ∧ Q a s' := by
  cases hx : x s with
  | returned a s' => exact ⟨a, s', rfl, h.returned hx⟩
  | exited s' => exact absurd (h.exited hx) (hE s')
  | unfinished => exact absurd hx h.finished

theorem Proc.Ensures.mono (h : x.Ensures s Q E) (hQ : ∀ a s', Q a s' → R a s')
    (hE : ∀ s', E s' → F s') : x.Ensures s R F := by
  rw [Proc.Ensures] at h ⊢
  cases hx : x s with
  | returned a s' => exact hQ a s' (by simpa only [hx] using h)
  | exited s' => exact hE s' (by simpa only [hx] using h)
  | unfinished => simp only [hx] at h

@[simp] theorem ensures_pure : (pure a : Proc σ α).Ensures s Q E ↔ Q a s := Iff.rfl

theorem ensures_bind :
    (x >>= f).Ensures s P E ↔ x.Ensures s (fun a s' => (f a).Ensures s' P E) E := by
  unfold Proc.Ensures
  rw [bind_apply]
  cases x s <;> rfl

theorem Proc.Ensures.bind (h : x.Ensures s Q F) (hf : ∀ a s', Q a s' → (f a).Ensures s' P E)
    (hF : ∀ s', F s' → E s') : (x >>= f).Ensures s P E :=
  ensures_bind.2 (h.mono hf hF)

theorem bind_returned {b : β} :
    (x >>= f) s = .returned b s' ↔ ∃ a s₁, x s = .returned a s₁ ∧ f a s₁ = .returned b s' := by
  rw [bind_apply]
  cases x s <;> simp [and_assoc]

end WebServer.Process
