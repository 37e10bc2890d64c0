import WebServer.Process

namespace WebServer.Process

/-- A call is answered with a value of its own type. `stuck` is a loop whose fuel is
used up. -/
inductive Prog (Call : Type) (Answer : Call → Type) (α : Type)
  | ret (a : α)
  | call (c : Call) (k : Answer c → Prog Call Answer α)
  | stuck

variable {Call : Type} {Answer : Call → Type} {α β σ : Type}

def Prog.bind : Prog Call Answer α → (α → Prog Call Answer β) → Prog Call Answer β
  | .ret a, f => f a
  | .call c k, f => .call c fun r => (k r).bind f
  | .stuck, _ => .stuck

instance : Monad (Prog Call Answer) where
  pure := .ret
  bind := Prog.bind

@[simp] theorem prog_pure (a : α) : (pure a : Prog Call Answer α) = .ret a := rfl

@[simp] theorem ret_bind (a : α) (f : α → Prog Call Answer β) : (.ret a >>= f) = f a := rfl

@[simp] theorem call_bind (c : Call) (k : Answer c → Prog Call Answer α) (f : α → Prog Call Answer β) :
    (.call c k >>= f) = .call c fun r => k r >>= f := rfl

@[simp] theorem stuck_bind (f : α → Prog Call Answer β) :
    ((.stuck : Prog Call Answer α) >>= f) = .stuck := rfl

def Prog.ask (c : Call) : Prog Call Answer (Answer c) := .call c .ret

def Prog.run (step : (c : Call) → Proc σ (Answer c)) : Prog Call Answer α → Proc σ α
  | .ret a => pure a
  | .call c k => step c >>= fun r => (k r).run step
  | .stuck => fun _ => .unfinished

variable {step : (c : Call) → Proc σ (Answer c)}

theorem proc_bind_assoc {γ : Type} (x : Proc σ α) (f : α → Proc σ β) (g : β → Proc σ γ) :
    (x >>= f >>= g) = x >>= fun a => f a >>= g := by
  funext s
  simp only [bind_apply]
  cases x s <;> rfl

@[simp] theorem run_ret (a : α) : (Prog.ret a : Prog Call Answer α).run step = pure a := rfl

@[simp] theorem run_stuck : (Prog.stuck : Prog Call Answer α).run step = fun _ => .unfinished := rfl

@[simp] theorem run_ask (c : Call) : (Prog.ask c : Prog Call Answer (Answer c)).run step = step c := by
  funext s
  show (step c >>= pure) s = step c s
  rw [bind_apply]
  cases step c s <;> rfl

@[simp] theorem run_bind (x : Prog Call Answer α) (f : α → Prog Call Answer β) :
    (x >>= f).run step = x.run step >>= fun a => (f a).run step := by
  induction x with
  | ret a => rfl
  | call c k ih =>
      rw [call_bind, Prog.run, Prog.run, proc_bind_assoc]
      congr 1
      funext r
      exact ih r
  | stuck => rfl

/-- Which calls a program may make, by a state that each answered call changes, and where
its fuel may be used up. -/
structure Protocol (Call : Type) (Answer : Call → Type) (S : Type) where
  allows : S → Call → Prop
  next : S → (c : Call) → Answer c → S
  sticks : S → Prop := fun _ => True

variable {S : Type} {P : Protocol Call Answer S} {Q R : α → S → Prop} {T : β → S → Prop} {s : S}
  {x : Prog Call Answer α} {f : α → Prog Call Answer β}

/-- From `s` on every call is one that the protocol allows, and at the end `Q` holds. -/
def Prog.Follows (P : Protocol Call Answer S) (Q : α → S → Prop) : S → Prog Call Answer α → Prop
  | s, .ret a => Q a s
  | s, .call c k => P.allows s c ∧ ∀ r, (k r).Follows P Q (P.next s c r)
  | s, .stuck => P.sticks s

theorem Prog.Follows.mono (h : x.Follows P Q s) (hQ : ∀ a s, Q a s → R a s) : x.Follows P R s := by
  induction x generalizing s with
  | ret a => exact hQ a s h
  | call c k ih => exact ⟨h.1, fun r => ih r (h.2 r)⟩
  | stuck => exact h

theorem Prog.Follows.bind (h : x.Follows P Q s) (hf : ∀ a s, Q a s → (f a).Follows P T s) :
    (x >>= f).Follows P T s := by
  induction x generalizing s with
  | ret a => exact hf a s h
  | call c k ih => exact ⟨h.1, fun r => ih r (h.2 r)⟩
  | stuck => exact h

theorem follows_ask {c : Call} {Q : Answer c → S → Prop} (hc : P.allows s c)
    (hQ : ∀ r, Q r (P.next s c r)) : (Prog.ask c : Prog Call Answer (Answer c)).Follows P Q s :=
  ⟨hc, hQ⟩

end WebServer.Process
