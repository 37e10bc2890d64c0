import Mathlib.Data.Fintype.Card
import Mathlib.Logic.Function.Basic

namespace WebServer.Monitor

variable {Tid Cond Pc Data Env : Type} [DecidableEq Tid]

/-- What a thread does at one program counter: an operation on the mutex or on
a condition variable, or a local action answered by the environment. -/
inductive Instr (Cond Pc Data Env : Type)
  | lock (next : Pc)
  | unlock (next : Pc)
  | wait (c : Cond) (next : Pc)
  | signal (c : Cond) (next : Pc)
  | broadcast (c : Cond) (next : Pc)
  | act (f : Data → Env → Option (Data × Pc))

/-- A waiting thread is asleep until it is woken, and then contends for the
mutex. Both phases remember where the thread goes on. -/
inductive Phase (Cond Pc : Type)
  | run (p : Pc)
  | asleep (c : Cond) (p : Pc)
  | woken (p : Pc)

structure State (Tid Cond Pc Data : Type) where
  owner : Option Tid
  phase : Tid → Phase Cond Pc
  data : Data

/-- A program for every thread, and the states in which the process still runs. -/
structure Machine (Tid Cond Pc Data Env : Type) where
  code : Tid → Pc → Instr Cond Pc Data Env
  alive : Data → Bool

def Phase.wake : Phase Cond Pc → Phase Cond Pc
  | .asleep _ p => .woken p
  | φ => φ

def wakeSet (W : Tid → Bool) (phase : Tid → Phase Cond Pc) (u : Tid) : Phase Cond Pc :=
  if W u then (phase u).wake else phase u

def Sleeps (σ : State Tid Cond Pc Data) (c : Cond) (u : Tid) : Prop :=
  ∃ p, σ.phase u = .asleep c p

/-- The step of one thread. A signal wakes at least one sleeper if there is
one, a broadcast wakes all of them, and a free mutex goes to any contender. -/
inductive Exec (M : Machine Tid Cond Pc Data Env) (t : Tid) :
    State Tid Cond Pc Data → State Tid Cond Pc Data → Prop
  | lock {σ p q} (hp : σ.phase t = .run p) (hi : M.code t p = .lock q) (free : σ.owner = none) :
      Exec M t σ ⟨some t, Function.update σ.phase t (.run q), σ.data⟩
  | relock {σ q} (hp : σ.phase t = .woken q) (free : σ.owner = none) :
      Exec M t σ ⟨some t, Function.update σ.phase t (.run q), σ.data⟩
  | unlock {σ p q} (hp : σ.phase t = .run p) (hi : M.code t p = .unlock q) :
      Exec M t σ ⟨none, Function.update σ.phase t (.run q), σ.data⟩
  | wait {σ p q c} (hp : σ.phase t = .run p) (hi : M.code t p = .wait c q) :
      Exec M t σ ⟨none, Function.update σ.phase t (.asleep c q), σ.data⟩
  | signal {σ p q c} (W : Tid → Bool) (hp : σ.phase t = .run p) (hi : M.code t p = .signal c q)
      (hW : ∀ u, W u = true → Sleeps σ c u) (one : (∃ u, Sleeps σ c u) → ∃ u, W u = true) :
      Exec M t σ ⟨σ.owner, Function.update (wakeSet W σ.phase) t (.run q), σ.data⟩
  | broadcast {σ p q c} (W : Tid → Bool) (hp : σ.phase t = .run p)
      (hi : M.code t p = .broadcast c q) (hW : ∀ u, W u = true ↔ Sleeps σ c u) :
      Exec M t σ ⟨σ.owner, Function.update (wakeSet W σ.phase) t (.run q), σ.data⟩
  | act {σ p f} (e : Env) {d q} (hp : σ.phase t = .run p) (hi : M.code t p = .act f)
      (hf : f σ.data e = some (d, q)) :
      Exec M t σ ⟨σ.owner, Function.update σ.phase t (.run q), d⟩

inductive Spurious (u : Tid) : State Tid Cond Pc Data → State Tid Cond Pc Data → Prop
  | wake {σ c p} (hp : σ.phase u = .asleep c p) :
      Spurious u σ ⟨σ.owner, Function.update σ.phase u (.woken p), σ.data⟩

inductive Step (M : Machine Tid Cond Pc Data Env) :
    State Tid Cond Pc Data → State Tid Cond Pc Data → Prop
  | exec {σ τ} (t : Tid) (live : M.alive σ.data = true) (h : Exec M t σ τ) : Step M σ τ
  | spurious {σ τ} (u : Tid) (live : M.alive σ.data = true) (h : Spurious u σ τ) : Step M σ τ

inductive Reachable (M : Machine Tid Cond Pc Data Env) (σ₀ : State Tid Cond Pc Data) :
    State Tid Cond Pc Data → Prop
  | start : Reachable M σ₀ σ₀
  | next {σ τ} : Reachable M σ₀ σ → Step M σ τ → Reachable M σ₀ τ

theorem Reachable.trans {M : Machine Tid Cond Pc Data Env} {σ₀ σ τ : State Tid Cond Pc Data}
    (h : Reachable M σ₀ σ) (h' : Reachable M σ τ) : Reachable M σ₀ τ := by
  induction h' with
  | start => exact h
  | next _ hs ih => exact ih.next hs

theorem Reachable.invariant {M : Machine Tid Cond Pc Data Env} {σ₀ σ : State Tid Cond Pc Data}
    {I : State Tid Cond Pc Data → Prop} (h : Reachable M σ₀ σ) (start : I σ₀)
    (step : ∀ σ τ, Reachable M σ₀ σ → I σ → Step M σ τ → I τ) : I σ := by
  induction h with
  | start => exact start
  | next hr hs ih => exact step _ _ hr ih hs

def Phase.place : Phase Cond Pc → Pc
  | .run p | .asleep _ p | .woken p => p

def State.place (σ : State Tid Cond Pc Data) (t : Tid) : Pc := (σ.phase t).place

def Instr.Goes (i : Instr Cond Pc Data Env) (d : Data) (q : Pc) (d' : Data) : Prop :=
  match i with
  | .lock r | .unlock r | .wait _ r | .signal _ r | .broadcast _ r => q = r ∧ d' = d
  | .act f => ∃ e, f d e = some (d', q)

@[simp] theorem place_wake (φ : Phase Cond Pc) : φ.wake.place = φ.place := by
  cases φ <;> rfl

omit [DecidableEq Tid] in
@[simp] theorem place_wakeSet (W : Tid → Bool) (phase : Tid → Phase Cond Pc) (u : Tid) :
    (wakeSet W phase u).place = (phase u).place := by
  rw [wakeSet]
  split
  · exact place_wake _
  · rfl

omit [DecidableEq Tid] in
theorem place_of_run {σ : State Tid Cond Pc Data} {t : Tid} {p : Pc} (h : σ.phase t = .run p) :
    σ.place t = p := by
  rw [State.place, h]; rfl

theorem place_update (f g : Tid → Phase Cond Pc) (t : Tid) (φ : Phase Cond Pc)
    (h : ∀ u, (f u).place = (g u).place) :
    (fun u => (Function.update f t φ u).place) =
      Function.update (fun u => (g u).place) t φ.place := by
  funext u
  by_cases hu : u = t
  · subst u; simp
  · simp [hu, h]

theorem exec_goes {M : Machine Tid Cond Pc Data Env} {t : Tid} {σ τ : State Tid Cond Pc Data}
    (h : Exec M t σ τ) :
    (σ.phase t = .woken (σ.place t) ∧ τ.place = σ.place ∧ τ.data = σ.data) ∨
      ∃ p q, σ.phase t = .run p ∧ (M.code t p).Goes σ.data q τ.data ∧
        τ.place = Function.update σ.place t q := by
  cases h with
  | relock hp free =>
      refine .inl ⟨by rw [State.place, hp]; rfl, ?_, rfl⟩
      refine (place_update _ _ t _ fun _ => rfl).trans ?_
      exact Function.update_eq_self_iff.2 (by rw [hp]; rfl)
  | lock hp hi free | unlock hp hi | wait hp hi =>
      exact .inr ⟨_, _, hp, by rw [hi]; exact ⟨rfl, rfl⟩, place_update _ _ t _ fun _ => rfl⟩
  | signal W hp hi hW one | broadcast W hp hi hW =>
      exact .inr ⟨_, _, hp, by rw [hi]; exact ⟨rfl, rfl⟩,
        place_update _ _ t _ fun u => place_wakeSet W _ u⟩
  | act e hp hi hf =>
      exact .inr ⟨_, _, hp, by rw [hi]; exact ⟨e, hf⟩, place_update _ _ t _ fun _ => rfl⟩

theorem spurious_place {u : Tid} {σ τ : State Tid Cond Pc Data} (h : Spurious u σ τ) :
    τ.place = σ.place ∧ τ.data = σ.data ∧ τ.owner = σ.owner := by
  cases h with
  | wake hp =>
      refine ⟨(place_update _ _ u _ fun _ => rfl).trans ?_, rfl, rfl⟩
      exact Function.update_eq_self_iff.2 (by rw [hp]; rfl)

/-- A property of places and data that every instruction keeps is invariant. -/
theorem Reachable.place_invariant {M : Machine Tid Cond Pc Data Env}
    {σ₀ σ : State Tid Cond Pc Data} {I : (Tid → Pc) → Data → Prop}
    (h : Reachable M σ₀ σ) (start : I σ₀.place σ₀.data)
    (step : ∀ f d t q d', I f d → (M.code t (f t)).Goes d q d' → I (Function.update f t q) d') :
    I σ.place σ.data := by
  induction h with
  | start => exact start
  | next _ hs ih =>
      cases hs with
      | exec t live h =>
          rcases exec_goes h with ⟨_, hpl, hd⟩ | ⟨p, q, hp, hg, hpl⟩
          · rw [hpl, hd]; exact ih
          · rw [hpl]
            exact step _ _ t q _ ih (by rw [place_of_run hp]; exact hg)
      | spurious u live h =>
          obtain ⟨hpl, hd, _⟩ := spurious_place h
          rw [hpl, hd]; exact ih

def Instr.Ready (i : Instr Cond Pc Data Env) (σ : State Tid Cond Pc Data) : Prop :=
  match i with
  | .lock _ => σ.owner = none
  | .act f => ∃ e d q, f σ.data e = some (d, q)
  | _ => True

theorem exec_exists {M : Machine Tid Cond Pc Data Env} {σ : State Tid Cond Pc Data} {t : Tid}
    {p : Pc} (hp : σ.phase t = .run p) (hr : (M.code t p).Ready σ) : ∃ τ, Exec M t σ τ := by
  classical
  cases hi : M.code t p with
  | lock q => exact ⟨_, .lock hp hi (by rwa [hi] at hr)⟩
  | unlock q => exact ⟨_, .unlock hp hi⟩
  | wait c q => exact ⟨_, .wait hp hi⟩
  | signal c q =>
      refine ⟨_, .signal (fun u => decide (Sleeps σ c u)) hp hi ?_ ?_⟩
      · intro u hu; simpa using hu
      · rintro ⟨u, hu⟩; exact ⟨u, by simpa using hu⟩
  | broadcast c q =>
      exact ⟨_, .broadcast (fun u => decide (Sleeps σ c u)) hp hi fun u => by simp⟩
  | act f =>
      rw [hi] at hr
      obtain ⟨e, d, q, hf⟩ := hr
      exact ⟨_, .act e hp hi hf⟩

variable [DecidableEq Cond]

def Phase.sleeps (c : Cond) : Phase Cond Pc → Bool
  | .asleep c' _ => decide (c' = c)
  | _ => false

omit [DecidableEq Tid] in
theorem sleeps_iff {σ : State Tid Cond Pc Data} {c : Cond} {u : Tid} :
    (σ.phase u).sleeps c = true ↔ Sleeps σ c u := by
  rw [Sleeps]
  cases σ.phase u <;> simp [Phase.sleeps]

/-- One turn of a thread, with the answer it gets from the environment. A signal
wakes every sleeper here. -/
def Machine.turn (M : Machine Tid Cond Pc Data Env) (t : Tid) (e : Env)
    (σ : State Tid Cond Pc Data) : Option (State Tid Cond Pc Data) :=
  match σ.phase t with
  | .asleep _ _ => none
  | .woken q =>
      if σ.owner = none then some ⟨some t, Function.update σ.phase t (.run q), σ.data⟩ else none
  | .run p =>
      match M.code t p with
      | .lock q =>
          if σ.owner = none then some ⟨some t, Function.update σ.phase t (.run q), σ.data⟩ else none
      | .unlock q => some ⟨none, Function.update σ.phase t (.run q), σ.data⟩
      | .wait c q => some ⟨none, Function.update σ.phase t (.asleep c q), σ.data⟩
      | .signal c q | .broadcast c q =>
          let phase := wakeSet (fun u => (σ.phase u).sleeps c) σ.phase
          some ⟨σ.owner, Function.update phase t (.run q), σ.data⟩
      | .act f => (f σ.data e).map fun r => ⟨σ.owner, Function.update σ.phase t (.run r.2), r.1⟩

theorem turn_exec {M : Machine Tid Cond Pc Data Env} {t : Tid} {e : Env}
    {σ τ : State Tid Cond Pc Data} (h : M.turn t e σ = some τ) : Exec M t σ τ := by
  rw [Machine.turn] at h
  cases hp : σ.phase t with
  | asleep c q => simp [hp] at h
  | woken q =>
      obtain ⟨free, rfl⟩ := by simpa [hp] using h
      exact .relock hp free
  | run p =>
      simp only [hp] at h
      cases hi : M.code t p with
      | lock q =>
          obtain ⟨free, rfl⟩ := by simpa [hi] using h
          exact .lock hp hi free
      | unlock q =>
          obtain rfl := by simpa [hi] using h
          exact .unlock hp hi
      | wait c q =>
          obtain rfl := by simpa [hi] using h
          exact .wait hp hi
      | signal c q =>
          obtain rfl := by simpa [hi] using h
          exact .signal _ hp hi (fun u hu => sleeps_iff.1 hu) fun ⟨u, hu⟩ => ⟨u, sleeps_iff.2 hu⟩
      | broadcast c q =>
          obtain rfl := by simpa [hi] using h
          exact .broadcast _ hp hi fun u => sleeps_iff
      | act f =>
          simp only [hi, Option.map_eq_some_iff] at h
          obtain ⟨⟨d, q⟩, hf, rfl⟩ := h
          exact .act e hp hi hf

/-- So that the numerals of one, two and three threads name one proof. -/
theorem one_neZero : @NeZero Nat Zero.ofOfNat0 1 := ⟨by decide⟩

theorem two_neZero : @NeZero Nat Zero.ofOfNat0 2 := ⟨by decide⟩

theorem three_neZero : @NeZero Nat Zero.ofOfNat0 3 := ⟨by decide⟩

attribute [instance] one_neZero two_neZero three_neZero

def Machine.replay (M : Machine Tid Cond Pc Data Env) :
    List (Tid × Env) → State Tid Cond Pc Data → Option (State Tid Cond Pc Data)
  | [], σ => some σ
  | (t, e) :: rest, σ => if M.alive σ.data then (M.turn t e σ).bind (M.replay rest) else none

theorem replay_reachable {M : Machine Tid Cond Pc Data Env}
    {schedule : List (Tid × Env)} {σ τ : State Tid Cond Pc Data}
    (h : M.replay schedule σ = some τ) : Reachable M σ τ := by
  induction schedule generalizing σ with
  | nil =>
      obtain rfl := by simpa [Machine.replay] using h
      exact .start
  | cons x rest ih =>
      obtain ⟨t, e⟩ := x
      obtain ⟨live, h⟩ := Option.ite_none_right_eq_some.1 h
      obtain ⟨υ, hυ, hτ⟩ := Option.bind_eq_some_iff.1 h
      exact (Reachable.start.next (.exec t live (turn_exec hυ))).trans (ih hτ)

end WebServer.Monitor
