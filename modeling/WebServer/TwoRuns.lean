import WebServer.Process

namespace WebServer.Process

variable {σ α β : Type} {R : σ → σ → Prop} {x : Proc σ α} {f : α → Proc σ β} {s s' : σ}

/-- The same outcome, in related states. -/
inductive Result.Related (R : σ → σ → Prop) : Result σ α → Result σ α → Prop
  | returned (a : α) {s s' : σ} (h : R s s') : Related R (.returned a s) (.returned a s')
  | exited {s s' : σ} (h : R s s') : Related R (.exited s) (.exited s')
  | unfinished : Related R .unfinished .unfinished

def Proc.Respects (R : σ → σ → Prop) (x : Proc σ α) : Prop :=
  ∀ s s', R s s' → (x s).Related R (x s')

theorem Result.Related.bind (h : (x s).Related R (x s')) (hf : ∀ a, (f a).Respects R) :
    ((x >>= f) s).Related R ((x >>= f) s') := by
  rw [bind_apply, bind_apply]
  generalize x s = r, x s' = r' at h ⊢
  cases h with
  | returned a h => exact hf a _ _ h
  | exited h => exact .exited h
  | unfinished => exact .unfinished

theorem respects_pure (a : α) : (pure a : Proc σ α).Respects R := fun _ _ h => .returned a h

theorem Proc.Respects.bind (hx : x.Respects R) (hf : ∀ a, (f a).Respects R) :
    (x >>= f).Respects R :=
  fun s s' h => (hx s s' h).bind hf

theorem respects_ite {p : Prop} [Decidable p] {x y : Proc σ α} (hx : x.Respects R)
    (hy : y.Respects R) : (if p then x else y).Respects R := by
  split
  · exact hx
  · exact hy

end WebServer.Process
