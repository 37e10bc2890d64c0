import WebServer.Monitor

namespace WebServer.Monitor

variable {Tid Cond Pc Data Env : Type} [DecidableEq Tid]

/-- An answer of the environment: to which thread, and where in its program. -/
structure Answer (Tid Pc Env : Type) where
  tid : Tid
  place : Pc
  env : Env

inductive Run (M : Machine Tid Cond Pc Data Env) (σ₀ : State Tid Cond Pc Data) :
    List (Answer Tid Pc Env) → State Tid Cond Pc Data → Prop
  | start : Run M σ₀ [] σ₀
  | act {as σ p f d q} (t : Tid) (e : Env) (live : M.alive σ.data = true)
      (hp : σ.phase t = .run p) (hi : M.code t p = .act f) (hf : f σ.data e = some (d, q))
      (h : Run M σ₀ as σ) :
      Run M σ₀ (as ++ [⟨t, p, e⟩]) ⟨σ.owner, Function.update σ.phase t (.run q), d⟩
  | sync {as σ τ} (t : Tid) (live : M.alive σ.data = true) (hx : Exec M t σ τ)
      (silent : ∀ p f, σ.phase t = .run p → M.code t p ≠ .act f) (h : Run M σ₀ as σ) : Run M σ₀ as τ
  | spurious {as σ τ} (u : Tid) (live : M.alive σ.data = true) (hx : Spurious u σ τ)
      (h : Run M σ₀ as σ) : Run M σ₀ as τ

variable {M : Machine Tid Cond Pc Data Env} {σ₀ σ : State Tid Cond Pc Data}
  {as : List (Answer Tid Pc Env)}

theorem Run.reachable (h : Run M σ₀ as σ) : Reachable M σ₀ σ := by
  induction h with
  | start => exact .start
  | act t e live hp hi hf _ ih => exact ih.next (.exec t live (.act e hp hi hf))
  | sync t live hx _ _ ih => exact ih.next (.exec t live hx)
  | spurious u live hx _ ih => exact ih.next (.spurious u live hx)

omit [DecidableEq Tid] in
theorem silent_of {t : Tid} {p : Pc} {i : Instr Cond Pc Data Env} (hp : σ.phase t = .run p)
    (hi : M.code t p = i) (hne : ∀ f, i ≠ .act f) :
    ∀ q f, σ.phase t = .run q → M.code t q ≠ .act f := by
  intro q f hq
  obtain rfl := Phase.run.inj (hp.symm.trans hq)
  rw [hi]
  exact hne f

theorem Reachable.run (h : Reachable M σ₀ σ) : ∃ as, Run M σ₀ as σ := by
  induction h with
  | start => exact ⟨[], .start⟩
  | next _ hs ih =>
      obtain ⟨as, has⟩ := ih
      cases hs with
      | spurious u live hx => exact ⟨as, .spurious u live hx has⟩
      | exec t live hx =>
          cases hx with
          | act e hp hi hf => exact ⟨_, .act t e live hp hi hf has⟩
          | relock hp free => exact ⟨as, .sync t live (.relock hp free) (by simp [hp]) has⟩
          | lock hp hi free => exact ⟨as, .sync t live (.lock hp hi free) (silent_of hp hi nofun) has⟩
          | unlock hp hi => exact ⟨as, .sync t live (.unlock hp hi) (silent_of hp hi nofun) has⟩
          | wait hp hi => exact ⟨as, .sync t live (.wait hp hi) (silent_of hp hi nofun) has⟩
          | signal W hp hi hW one =>
              exact ⟨as, .sync t live (.signal W hp hi hW one) (silent_of hp hi nofun) has⟩
          | broadcast W hp hi hW =>
              exact ⟨as, .sync t live (.broadcast W hp hi hW) (silent_of hp hi nofun) has⟩

/-- A property of answers, places and data that every answer and every other
instruction keeps is invariant. `B` is what is known of them from elsewhere. -/
theorem Run.invariant_known {I B : List (Answer Tid Pc Env) → (Tid → Pc) → Data → Prop}
    (known : ∀ as τ, Run M σ₀ as τ → B as τ.place τ.data) (h : Run M σ₀ as σ)
    (start : I [] σ₀.place σ₀.data)
    (act : ∀ as f d t e g d' q, B as f d → I as f d → M.code t (f t) = .act g →
      g d e = some (d', q) → I (as ++ [⟨t, f t, e⟩]) (Function.update f t q) d')
    (sync : ∀ as f d t q, B as f d → I as f d → (∀ g, M.code t (f t) ≠ .act g) →
      (M.code t (f t)).Goes d q d → I as (Function.update f t q) d) : I as σ.place σ.data := by
  induction h with
  | start => exact start
  | @act as σ p f d q t e live hp hi hf hr ih =>
      have hplace : (⟨σ.owner, Function.update σ.phase t (.run q), d⟩ : State Tid Cond Pc Data).place =
          Function.update σ.place t q := place_update σ.phase σ.phase t (.run q) fun _ => rfl
      have hpl := place_of_run hp
      rw [← hpl] at hi
      rw [hplace, ← hpl]
      exact act _ _ _ t e _ _ _ (known _ _ hr) ih hi hf
  | @sync as σ τ t live hx silent hr ih =>
      rcases exec_goes hx with ⟨-, hpl, hd⟩ | ⟨p, q, hp, hg, hpl⟩
      · rwa [hpl, hd]
      · have hdata : τ.data = σ.data := by
          cases hi : M.code t p with
          | act f => exact absurd hi (silent p f hp)
          | _ => rw [hi] at hg; exact hg.2
        rw [hpl, hdata]
        rw [hdata] at hg
        have hplace := place_of_run hp
        exact sync _ _ _ t q (known _ _ hr) ih (fun g => by rw [hplace]; exact silent p g hp)
          (by rwa [hplace])
  | spurious u live hx _ ih =>
      obtain ⟨hpl, hd, -⟩ := spurious_place hx
      rwa [hpl, hd]

theorem Run.invariant {I : List (Answer Tid Pc Env) → (Tid → Pc) → Data → Prop}
    (h : Run M σ₀ as σ) (start : I [] σ₀.place σ₀.data)
    (act : ∀ as f d t e g d' q, I as f d → M.code t (f t) = .act g → g d e = some (d', q) →
      I (as ++ [⟨t, f t, e⟩]) (Function.update f t q) d')
    (sync : ∀ as f d t q, I as f d → (∀ g, M.code t (f t) ≠ .act g) → (M.code t (f t)).Goes d q d →
      I as (Function.update f t q) d) : I as σ.place σ.data :=
  h.invariant_known (B := fun _ _ _ => True) (fun _ _ _ => trivial) start
    (fun as f d t e g d' q _ => act as f d t e g d' q) fun as f d t q _ => sync as f d t q

variable [DecidableEq Cond]

def Machine.asks (M : Machine Tid Cond Pc Data Env) (t : Tid) (e : Env)
    (σ : State Tid Cond Pc Data) : List (Answer Tid Pc Env) :=
  match σ.phase t with
  | .run p =>
      match M.code t p with
      | .act _ => [⟨t, p, e⟩]
      | _ => []
  | _ => []

def Machine.answers (M : Machine Tid Cond Pc Data Env) :
    List (Tid × Env) → State Tid Cond Pc Data → List (Answer Tid Pc Env)
  | [], _ => []
  | x :: rest, σ => M.asks x.1 x.2 σ ++ ((M.turn x.1 x.2 σ).map (M.answers rest)).getD []

theorem turn_run {τ : State Tid Cond Pc Data} {t : Tid} {e : Env} (h : Run M σ₀ as σ)
    (live : M.alive σ.data = true) (ht : M.turn t e σ = some τ) : Run M σ₀ (as ++ M.asks t e σ) τ := by
  have hx := turn_exec ht
  rw [Machine.asks]
  cases hp : σ.phase t with
  | asleep c q | woken q =>
      simp only [List.append_nil]
      exact .sync t live hx (by simp [hp]) h
  | run p =>
      cases hi : M.code t p with
      | act f =>
          simp only [Machine.turn, hp, hi, Option.map_eq_some_iff] at ht
          obtain ⟨⟨d, q⟩, hf, rfl⟩ := ht
          simp only [hi]
          exact .act t e live hp hi hf h
      | _ =>
          simp only [hi, List.append_nil]
          exact .sync t live hx (silent_of hp hi (by simp)) h

theorem replay_run {schedule : List (Tid × Env)} {τ : State Tid Cond Pc Data} (hr : Run M σ₀ as σ)
    (h : M.replay schedule σ = some τ) : Run M σ₀ (as ++ M.answers schedule σ) τ := by
  induction schedule generalizing as σ with
  | nil =>
      obtain rfl := by simpa [Machine.replay] using h
      rwa [Machine.answers, List.append_nil]
  | cons x rest ih =>
      obtain ⟨t, e⟩ := x
      obtain ⟨live, h⟩ := Option.ite_none_right_eq_some.1 h
      obtain ⟨υ, hυ, hτ⟩ := Option.bind_eq_some_iff.1 h
      have hrest := ih (turn_run hr live hυ) hτ
      rw [List.append_assoc] at hrest
      rwa [Machine.answers, hυ, Option.map_some, Option.getD_some]

end WebServer.Monitor
