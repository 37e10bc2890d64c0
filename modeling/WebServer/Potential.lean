import Mathlib.Algebra.BigOperators.Fin
import Mathlib.Algebra.Order.BigOperators.Group.Finset
import Mathlib.Tactic.Linarith
import WebServer.MonitorRules

namespace WebServer.Monitor

variable {Tid Cond Pc Data Env : Type} [DecidableEq Tid] [Fintype Tid]

/-- What is charged for a thread at a place: a woken thread has one step more to
take, and a sleeping one gets `w` when it is woken. -/
def Phase.charge (g : Pc → Nat) (w : Nat) : Phase Cond Pc → Nat
  | .run p => g p
  | .woken p => g p + 1
  | .asleep _ p => g p + 1 - w

@[simp] theorem charge_run (g : Pc → Nat) (w : Nat) (p : Pc) :
    (Phase.run p : Phase Cond Pc).charge g w = g p := rfl

@[simp] theorem charge_woken (g : Pc → Nat) (w : Nat) (p : Pc) :
    (Phase.woken p : Phase Cond Pc).charge g w = g p + 1 := rfl

@[simp] theorem charge_asleep (g : Pc → Nat) (w : Nat) (c : Cond) (p : Pc) :
    (Phase.asleep c p).charge g w = g p + 1 - w := rfl

def energy (g : Pc → Nat) (w : Nat) (D : Data → Int) (σ : State Tid Cond Pc Data) : Int :=
  D σ.data + ∑ t, ((σ.phase t).charge g w : Int)

/-- Whatever it does, an instruction spends energy. A signal gives every thread `w`. -/
def Instr.Spends (g : Pc → Nat) (w threads : Nat) (D : Data → Int) (p : Pc) :
    Instr Cond Pc Data Env → Prop
  | .lock q | .unlock q => g q < g p
  | .wait _ q => g q + 1 - w < g p
  | .signal _ q | .broadcast _ q => g q + w * threads < g p
  | .act f => ∀ d e d' q, f d e = some (d', q) → D d' + g q < D d + g p

variable {M : Machine Tid Cond Pc Data Env} {g : Pc → Nat} {w c : Nat} {D : Data → Int}
  {σ τ : State Tid Cond Pc Data} {t : Tid}

theorem sum_update (phase : Tid → Phase Cond Pc) (t : Tid) (φ : Phase Cond Pc) :
    (∑ u, ((Function.update phase t φ u).charge g w : Int)) =
      ∑ u, ((phase u).charge g w : Int) + φ.charge g w - (phase t).charge g w := by
  have h (f : Tid → Int) : ∑ u, f u = f t + ∑ u ∈ Finset.univ.erase t, f u :=
    (Finset.add_sum_erase _ f (Finset.mem_univ t)).symm
  have hrest : ∑ u ∈ Finset.univ.erase t, ((Function.update phase t φ u).charge g w : Int) =
      ∑ u ∈ Finset.univ.erase t, ((phase u).charge g w : Int) := by
    apply Finset.sum_congr rfl
    intro u hu
    rw [Function.update_of_ne (Finset.ne_of_mem_erase hu)]
  rw [h, h fun u => ((phase u).charge g w : Int), hrest, Function.update_self]
  linarith

omit [DecidableEq Tid] [Fintype Tid] in
theorem charge_wakeSet (W : Tid → Bool) (phase : Tid → Phase Cond Pc) (u : Tid) :
    (wakeSet W phase u).charge g w ≤ (phase u).charge g w + w := by
  rw [wakeSet]
  split
  · cases phase u <;> simp only [Phase.wake, Phase.charge] <;> omega
  · omega

omit [DecidableEq Tid] in
theorem sum_wakeSet (W : Tid → Bool) (phase : Tid → Phase Cond Pc) :
    ∑ u, ((wakeSet W phase u).charge g w : Int) ≤
      ∑ u, ((phase u).charge g w : Int) + w * Fintype.card Tid := by
  have h : ∑ u, ((wakeSet W phase u).charge g w : Int) ≤
      ∑ u, (((phase u).charge g w : Int) + w) := by
    apply Finset.sum_le_sum
    intro u _
    exact_mod_cast charge_wakeSet W phase u
  rw [Finset.sum_add_distrib, Finset.sum_const, Finset.card_univ, nsmul_eq_mul] at h
  linarith

theorem energy_update (phase : Tid → Phase Cond Pc) (o : Option Tid) (φ : Phase Cond Pc) (d : Data) :
    energy g w D ⟨o, Function.update phase t φ, d⟩ =
      D d + ∑ u, ((phase u).charge g w : Int) + φ.charge g w - (phase t).charge g w := by
  rw [energy, sum_update]
  linarith

theorem exec_spends (h : Exec M t σ τ)
    (hs : ∀ p, σ.phase t = .run p → (M.code t p).Spends g w (Fintype.card Tid) D p) :
    energy g w D τ < energy g w D σ := by
  cases h with
  | lock hp hi free | unlock hp hi | wait hp hi =>
      have hs := hs _ hp
      rw [hi] at hs
      simp only [Instr.Spends] at hs
      rw [energy_update, hp, energy]
      simp only [charge_run, charge_asleep]
      omega
  | relock hp free =>
      rw [energy_update, hp, energy]
      simp only [charge_run, charge_woken]
      omega
  | signal W hp hi hW one | broadcast W hp hi hW =>
      have hs := hs _ hp
      rw [hi] at hs
      simp only [Instr.Spends] at hs
      have hw := @sum_wakeSet _ _ _ _ g w W σ.phase
      rw [energy_update, wakeSet_run.2 hp, energy]
      simp only [charge_run]
      zify at hs
      linarith
  | act e hp hi hf =>
      have hs := hs _ hp
      rw [hi] at hs
      have hs := hs _ _ _ _ hf
      rw [energy_update, hp, energy]
      simp only [charge_run]
      linarith

theorem exec_supplies (h : Exec M t σ τ) {p : Pc} (hp : σ.phase t = .run p)
    {f : Data → Env → Option (Data × Pc)} (hi : M.code t p = .act f)
    (hc : ∀ d e d' q, f d e = some (d', q) → D d' + g q ≤ D d + g p + c) :
    energy g w D τ ≤ energy g w D σ + c := by
  cases h with
  | act e hp' hi' hf =>
      rw [hp] at hp'
      obtain rfl := Phase.run.inj hp'
      obtain rfl := Instr.act.inj (hi.symm.trans hi')
      have hc := hc _ _ _ _ hf
      rw [energy_update, hp, energy]
      simp only [charge_run]
      linarith
  | _ => simp_all

theorem spurious_supplies (h : Spurious t σ τ) : energy g w D τ ≤ energy g w D σ + w := by
  cases h with
  | wake hp =>
      rw [energy_update, hp, energy]
      simp only [charge_woken, charge_asleep]
      omega

/-- A run with `work` steps of its own and `supply` steps that the environment
starts: the steps of threads at a place in `new`, and spurious wakeups. -/
inductive Runs (M : Machine Tid Cond Pc Data Env) (new : Pc → Bool) (σ : State Tid Cond Pc Data) :
    (work supply : Nat) → State Tid Cond Pc Data → Prop
  | none : Runs M new σ 0 0 σ
  | work {k s τ υ} (t : Tid) (h : Runs M new σ k s τ) (live : M.alive τ.data = true)
      (old : new (τ.place t) = false) (he : Exec M t τ υ) : Runs M new σ (k + 1) s υ
  | supply {k s τ υ} (t : Tid) (h : Runs M new σ k s τ) (live : M.alive τ.data = true)
      (fresh : new (τ.place t) = true) (he : Exec M t τ υ) : Runs M new σ k (s + 1) υ
  | spurious {k s τ υ} (u : Tid) (h : Runs M new σ k s τ) (live : M.alive τ.data = true)
      (he : Spurious u τ υ) : Runs M new σ k (s + 1) υ

omit [Fintype Tid] in
theorem Runs.reachable {new : Pc → Bool} {k s : Nat} (h : Runs M new σ k s τ) : Reachable M σ τ := by
  induction h with
  | none => exact .start
  | work t h live old he ih => exact ih.next (.exec t live he)
  | supply t h live fresh he ih => exact ih.next (.exec t live he)
  | spurious u h live he ih => exact ih.next (.spurious u live he)

structure Potential (M : Machine Tid Cond Pc Data Env) (new : Pc → Bool) (g : Pc → Nat) (w c : Nat)
    (D : Data → Int) : Prop where
  spends : ∀ t p, new p = false → (M.code t p).Spends g w (Fintype.card Tid) D p
  supplies : ∀ t p, new p = true → ∃ f, M.code t p = .act f ∧
    ∀ d e d' q, f d e = some (d', q) → D d' + g q ≤ D d + g p + c

/-- The threads take no more steps than the energy at the start and the supply
allow. -/
theorem Potential.bound {new : Pc → Bool} (hP : Potential M new g w c D) (hw : w ≤ c) {k s : Nat}
    (hnew : ∀ σ', Reachable M σ σ' → ∀ t q, σ'.phase t = .woken q → new q = false)
    (h : Runs M new σ k s τ) : k + energy g w D τ ≤ energy g w D σ + c * s := by
  induction h with
  | none => simp
  | work t h live old he ih =>
      have hlt := exec_spends (g := g) (w := w) (D := D) he fun p hp =>
        hP.spends t p (by rwa [place_of_run hp] at old)
      push_cast
      linarith
  | @supply k s τ υ t h live fresh he ih =>
      have hle : energy g w D υ ≤ energy g w D τ + c := by
        cases hφ : τ.phase t with
        | run p =>
            obtain ⟨f, hi, hc⟩ := hP.supplies t p (by rwa [place_of_run hφ] at fresh)
            exact exec_supplies he hφ hi hc
        | woken q =>
            have hq := hnew τ h.reachable t q hφ
            rw [State.place, hφ, Phase.place, hq] at fresh
            cases fresh
        | asleep b q => cases he <;> simp_all
      push_cast
      linarith
  | spurious u h live he ih =>
      have hle := @spurious_supplies _ _ _ _ _ _ g w D _ _ _ he
      push_cast
      have hwc : (w : Int) ≤ c := by exact_mod_cast hw
      linarith

theorem finitely_often {α β : Type} {lower : β → β → Prop} (hwf : WellFounded lower) (rank : α → β)
    {rest : α → α → Prop} {f : Nat → α} (h : ∀ m, lower (rank (f (m + 1))) (rank (f m)) ∨
      rest (f m) (f (m + 1)) ∧ rank (f (m + 1)) = rank (f m)) :
    ∃ N, ∀ m, N ≤ m → rest (f m) (f (m + 1)) := by
  have key (b : β) : ∀ f : Nat → α, rank (f 0) = b →
      (∀ m, lower (rank (f (m + 1))) (rank (f m)) ∨
        rest (f m) (f (m + 1)) ∧ rank (f (m + 1)) = rank (f m)) →
      ∃ N, ∀ m, N ≤ m → rest (f m) (f (m + 1)) := by
    induction b using hwf.induction with
    | h b ih =>
        intro f hb h
        by_cases hlow : ∃ m, lower (rank (f (m + 1))) (rank (f m))
        · classical
          obtain ⟨m, hm, hfirst⟩ := Nat.findX hlow
          have hsame (j : Nat) (hj : j ≤ m) : rank (f j) = b := by
            induction j with
            | zero => exact hb
            | succ j ihj => rw [((h j).resolve_left (hfirst j hj)).2, ihj (by omega)]
          obtain ⟨N, hN⟩ := ih _ (hsame m le_rfl ▸ hm) (fun j => f (m + 1 + j)) rfl
            fun j => h (m + 1 + j)
          refine ⟨m + 1 + N, fun j hj => ?_⟩
          obtain ⟨j, rfl⟩ := Nat.exists_eq_add_of_le (Nat.le_of_add_right_le hj)
          exact hN j (by omega)
        · exact ⟨0, fun m _ => ((h m).resolve_left fun hm => hlow ⟨m, hm⟩).1⟩
  exact key _ f rfl h

def Instr.SpendsAt (g : Pc → Nat) (w threads : Nat) (D : Data → Int) (p : Pc) (d : Data) :
    Instr Cond Pc Data Env → Prop
  | .lock q | .unlock q => g q < g p
  | .wait _ q => g q + 1 - w < g p
  | .signal _ q | .broadcast _ q => g q + w * threads < g p
  | .act f => ∀ e d' q, f d e = some (d', q) → D d' + g q < D d + g p

theorem exec_spends_at (h : Exec M t σ τ) (hs : ∀ p, σ.phase t = .run p →
    (M.code t p).SpendsAt g w (Fintype.card Tid) D p σ.data) :
    energy g w D τ < energy g w D σ := by
  by_cases hact : ∃ p f, σ.phase t = .run p ∧ M.code t p = .act f
  · obtain ⟨p, f, hp, hi⟩ := hact
    have hs := hs p hp
    rw [hi] at hs
    cases h with
    | act e hp' hi' hf =>
        obtain rfl := Phase.run.inj (hp.symm.trans hp')
        obtain rfl := Instr.act.inj (hi.symm.trans hi')
        have hlt := hs _ _ _ hf
        rw [energy_update, hp, energy]
        simp only [charge_run]
        linarith
    | _ => simp_all
  · refine exec_spends h fun p hp => ?_
    have hs := hs p hp
    cases hi : M.code t p with
    | act f => exact absurd ⟨p, f, hp, hi⟩ hact
    | _ => rwa [hi] at hs

theorem Runs.spends {k s : Nat} (h : Runs M (fun _ => false) σ k s τ)
    (hs : ∀ υ, Reachable M σ υ → M.alive υ.data = true → ∀ t p, υ.phase t = .run p →
      (M.code t p).SpendsAt g w (Fintype.card Tid) D p υ.data) :
    k + energy g w D τ ≤ energy g w D σ + w * s := by
  induction h with
  | none => simp
  | work t h live old he ih =>
      have hlt := exec_spends_at he (hs _ h.reachable live t)
      push_cast
      linarith
  | supply t h live fresh he ih => cases fresh
  | spurious u h live he ih =>
      have hle := @spurious_supplies _ _ _ _ _ _ g w D _ _ _ he
      push_cast
      linarith

end WebServer.Monitor
