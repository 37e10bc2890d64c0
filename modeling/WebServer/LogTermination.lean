import WebServer.LogGrowth
import WebServer.LogProgress
import WebServer.Potential
import WebServer.Restriction

namespace WebServer.LogTermination

open Monitor ServerLog LogLock LogBuffer LogContent LogProgress
open LogGrowth (inside_reachable)

variable {Tid : Type} [DecidableEq Tid] [Fintype Tid] {byte : Nat → Byte} {σ τ : LogState Tid}
  {t : Tid} {c : Nat} {d d' : Shared} {p q : Pc}

def Choice.goesOn : Choice → Bool
  | .junk _ | .failed => true
  | .getLog | .addToLog _ _ => false

abbrev closing (Tid : Type) := (machine Tid).restrict Choice.goesOn

/-- How many bytes the call at `p` has still to add to the size of the log. -/
def pending : Pc → Nat
  | .addTest _ (some bs) n => (Entry.take bs n).bytes.length
  | .add _ e s => match s with
    | .terminate | .clear | .testWaiting | .signal | .broadcast | .unlock => 0
    | _ => e.bytes.length
  | _ => 0

def total (σ : LogState Tid) : Nat := σ.data.log.size + ∑ t, pending (σ.place t)

omit [DecidableEq Tid] in
theorem pending_le (σ : LogState Tid) (t : Tid) :
    σ.data.log.size + pending (σ.place t) ≤ total σ :=
  Nat.add_le_add_left (Finset.single_le_sum (f := fun u => pending (σ.place u))
    (fun _ _ => Nat.zero_le _) (Finset.mem_univ t)) _

theorem goes_pending (hp : p ≠ .idle) (hg : (code p).Goes d q d')
    (hsum : ∀ c e, p = .add c e .addSize →
      sizeT (d.log.size + e.bytes.length) = d.log.size + e.bytes.length) :
    d'.log.size + pending q ≤ d.log.size + pending p := by
  cases p with
  | idle => exact absurd rfl hp
  | get c s => cases get_edge hg <;> exact le_rfl
  | addTest c data n =>
      cases goes_edge hg with
      | ignore | accept => simp [pending]
  | addRet c => cases goes_edge hg; exact le_rfl
  | add c e s =>
      by_cases hs : s = .addSize
      · subst hs
        obtain ⟨byte, rfl, rfl⟩ := goes_stmt.1 hg
        exact (hsum c e rfl).le
      · cases add_edge hg with
        | sizeAdded => exact absurd rfl hs
        | _ => exact le_rfl

theorem exec_total (hr : Reachable (machine Tid) (start Tid byte) σ) (h : Exec (machine Tid) t σ τ)
    (hp : σ.place t ≠ .idle) : total τ ≤ total σ := by
  rcases exec_goes h with ⟨-, hpl, hd⟩ | ⟨p, q, hφ, hg, hpl⟩
  · rw [total, total, hpl, hd]
  · have hplace := place_of_run hφ
    rw [hplace] at hp
    have hgoes := goes_pending hp hg fun c e hadd => by
      subst hadd
      exact inside_reachable hr hφ
    have hsum : ∑ u, pending (τ.place u) + pending p = ∑ u, pending (σ.place u) + pending q := by
      have hcomp : (fun u => pending (τ.place u)) =
          Function.update (fun u => pending (σ.place u)) t (pending q) := by
        rw [hpl]
        exact Function.comp_update pending σ.place t q
      have hrest := Finset.add_sum_erase Finset.univ (fun u => pending (σ.place u))
        (Finset.mem_univ t)
      rw [hcomp, Finset.sum_update_of_mem (Finset.mem_univ t), Finset.sdiff_singleton_eq_erase,
        ← hrest, hplace]
      omega
    rw [total, total]
    omega

def wakeup : Nat := 3

def GetPc.left (B W : Nat) : GetPc → Nat
  | .lock => 16 + W + B
  | .check => 15 + W + B
  | .wait => 14 + W + B
  | .incReaders => 13 + W + B
  | .unlock => 12 + W + B
  | .malloc => 11 + W + B
  | .memcpy _ => 10 + W + B
  | .copying _ _ n i _ => 8 + W + (n - i)
  | .result _ => 7 + W
  | .endLock _ _ => 6 + W
  | .decReaders _ _ => 5 + W
  | .testReaders _ _ => 4 + W
  | .signal _ _ => 3 + W
  | .endUnlock _ _ => 2
  | .ret _ _ => 1

def AddPc.left (B W len : Nat) : AddPc → Nat
  | .lock => 22 + W + len + 2 * B
  | .incWaiting => 21 + W + len + 2 * B
  | .check => 20 + W + len + 2 * B
  | .wait => 19 + W + len + 2 * B
  | .decWaiting => 19 + W + len + 2 * B
  | .setWriter => 18 + W + len + 2 * B
  | .grow => 17 + W + len + 2 * B
  | .growLoop m => 15 + W + len + B + (B + 1 - m)
  | .malloc _ => 14 + W + len + B
  | .copyOld _ _ _ n i => 13 + W + len + (n - i)
  | .free _ _ => 12 + W + len
  | .setBuffer _ _ => 11 + W + len
  | .setCapacity _ => 10 + W + len
  | .memcpy => 9 + W + len
  | .copying _ _ i => 8 + W + (len - i)
  | .addSize => 7 + W
  | .terminate => 6 + W
  | .clear => 5 + W
  | .testWaiting => 4 + W
  | .signal | .broadcast => 3 + W
  | .unlock => 2

def left (B W : Nat) : Pc → Nat
  | .idle => 0
  | .get _ s => GetPc.left B W s
  | .addTest _ data n => 23 + W + pending (.addTest 0 data n) + 2 * B
  | .add _ e s => AddPc.left B W e.bytes.length s
  | .addRet _ => 1

def spare (d : Shared) : Int := if d.running then 1 else 0

omit [DecidableEq Tid] [Fintype Tid] in
theorem spendsAt_stmt {g : Pc → Nat} {w threads : Nat} {f : (Nat → Byte) → Shared → Shared × Pc}
    (h : ∀ byte, (f byte d).1.running = d.running ∧ g (f byte d).2 < g p) :
    ((stmt f).restrict Choice.goesOn).SpendsAt g w threads spare p d := by
  intro e d' q hf
  obtain ⟨byte, rfl, rfl⟩ := goes_stmt.1 ⟨e, (Option.ite_none_right_eq_some.1 hf).2⟩
  obtain ⟨hlive, hlt⟩ := h byte
  rw [spare, spare, hlive]
  omega

omit [DecidableEq Tid] [Fintype Tid] in
theorem spendsAt_malloc {g : Pc → Nat} {w threads : Nat} {size : Shared → Nat}
    {f : (Nat → Byte) → Shared → Shared × Pc} (live : d.running = true)
    (h : ∀ byte, (f byte d).1.running = d.running ∧ g (f byte d).2 < g p) :
    ((Malloc p size f).restrict Choice.goesOn).SpendsAt g w threads spare p d := by
  intro e d' q hf
  rcases goes_malloc.1 ⟨e, (Option.ite_none_right_eq_some.1 hf).2⟩ with
    ⟨-, byte, rfl, rfl⟩ | ⟨rfl, rfl⟩
  · obtain ⟨hlive, hlt⟩ := h byte
    rw [spare, spare, hlive]
    omega
  · simp [spare, live]

theorem getLog_spends {B threads : Nat} (s : GetPc) (live : d.running = true)
    (hsize : d.log.size ≤ B) :
    ((getLog c s).restrict Choice.goesOn).SpendsAt (left B (wakeup * threads)) wakeup threads
      spare (.get c s) d := by
  have hcopy : sizeT (d.log.size + 1) ≤ B + 1 := (Nat.mod_le _ _).trans (by omega)
  cases s with
  | lock | unlock | wait | endLock | endUnlock | signal =>
      simp only [getLog, Instr.restrict, Instr.SpendsAt, left, GetPc.left, wakeup]
      omega
  | check | copying | testReaders =>
      refine spendsAt_stmt fun byte => ⟨rfl, ?_⟩
      dsimp only
      split <;> simp only [left, GetPc.left] <;> omega
  | malloc =>
      refine spendsAt_malloc live fun byte => ⟨rfl, ?_⟩
      simp only [left, GetPc.left]
      omega
  | _ =>
      refine spendsAt_stmt fun byte => ⟨rfl, ?_⟩
      simp only [left, GetPc.left]
      omega

theorem addToLog_spends {B threads : Nat} {e : Entry} (s : AddPc) (live : d.running = true)
    (hsize : d.log.size ≤ B) (hneed : pending (.add c e s) = e.bytes.length →
      sizeT (d.log.size + e.bytes.length + 1) ≤ B + 1)
    (hdouble : ∀ m, s = .growLoop m → m < sizeT (d.log.size + e.bytes.length + 1) →
      m < sizeT (m * 2)) :
    ((addToLog c e s).restrict Choice.goesOn).SpendsAt (left B (wakeup * threads)) wakeup threads
      spare (.add c e s) d := by
  cases s with
  | lock | unlock | wait | broadcast | signal =>
      simp only [addToLog, Instr.restrict, Instr.SpendsAt, left, AddPc.left, wakeup]
      omega
  | check | testWaiting | grow =>
      refine spendsAt_stmt fun byte => ⟨rfl, ?_⟩
      dsimp only
      split <;> simp only [left, AddPc.left] <;> omega
  | growLoop m =>
      have hneed := hneed rfl
      refine spendsAt_stmt fun byte => ⟨rfl, ?_⟩
      dsimp only
      split
      · next hlt =>
        have hlt' := hdouble m rfl hlt
        simp only [left, AddPc.left]
        omega
      · simp only [left, AddPc.left]
        omega
  | malloc m =>
      refine spendsAt_malloc live fun byte => ⟨rfl, ?_⟩
      simp only [left, AddPc.left]
      omega
  | copyOld m new src n i =>
      refine spendsAt_stmt fun byte => ?_
      split <;> refine ⟨rfl, ?_⟩ <;> simp only [left, AddPc.left] <;> omega
  | copying dst off i =>
      refine spendsAt_stmt fun byte => ?_
      split
      · next b hb =>
        have hi := (List.getElem?_eq_some_iff.1 hb).1
        refine ⟨rfl, ?_⟩
        simp only [left, AddPc.left]
        omega
      · refine ⟨rfl, ?_⟩
        simp only [left, AddPc.left]
        omega
  | _ =>
      refine spendsAt_stmt fun byte => ⟨rfl, ?_⟩
      simp only [left, AddPc.left]
      omega

omit [Fintype Tid] in
theorem doubles (h : Reachable (machine Tid) (start Tid byte) σ) {e : Entry} {m : Nat}
    (hp : σ.phase t = .run (.add c e (.growLoop m)))
    (hlt : m < sizeT (σ.data.log.size + e.bytes.length + 1)) : m < sizeT (m * 2) := by
  have hs : Sized σ.data.mem (logged σ.data.trace) e.bytes (.growLoop m) :=
    (sized_annotated h).2 t _ hp rfl
  have hlow := (hs.next m rfl).1.low
  rw [(hs.double e.fits hlt).2]
  omega

theorem code_spends (h : Reachable (machine Tid) (start Tid byte) σ) (live : σ.data.running = true)
    {B threads : Nat} (hB : total σ ≤ B) (hp : σ.phase t = .run p) :
    ((code p).restrict Choice.goesOn).SpendsAt (left B (wakeup * threads)) wakeup threads
      spare p σ.data := by
  have hle := pending_le σ t
  rw [place_of_run hp] at hle
  cases p with
  | idle =>
      intro e d' q hf
      obtain ⟨hgo, hf⟩ := Option.ite_none_right_eq_some.1 hf
      cases e with
      | junk | failed => cases hf
      | getLog | addToLog => cases hgo
  | addTest c data n =>
      refine spendsAt_stmt fun byte => ?_
      cases data with
      | none =>
          refine ⟨rfl, ?_⟩
          simp only [left]
          omega
      | some bs =>
          refine ⟨rfl, ?_⟩
          dsimp only
          split
          · simp only [left]
            omega
          · simp only [left, AddPc.left, pending]
            omega
  | addRet c => exact spendsAt_stmt fun byte => ⟨rfl, Nat.one_pos⟩
  | get c s => exact getLog_spends s live (by omega)
  | add c e s =>
      refine addToLog_spends s live (by omega) (fun hpending => ?_) fun m hm => ?_
      · rw [hpending] at hle
        exact (Nat.mod_le _ _).trans (by omega)
      · subst hm
        exact doubles h hp

omit [Fintype Tid] in
theorem inCall_of_closing (hr : Reachable (machine Tid) (start Tid byte) σ)
    (h : Exec (closing Tid) t σ τ) : inCall (σ.place t) = true := by
  rcases exec_goes h with ⟨hwoken, -⟩ | ⟨p, q, hp, hg, -⟩
  · rcases waiter_place hr (.inr hwoken) with ⟨c, hc⟩ | ⟨c, e, hc⟩ <;> rw [hc] <;> rfl
  · rw [place_of_run hp]
    cases p with
    | idle =>
        obtain ⟨e, hf⟩ := hg
        obtain ⟨hgo, hf⟩ := Option.ite_none_right_eq_some.1 hf
        cases e with
        | junk | failed => cases hf
        | getLog | addToLog => cases hgo
    | _ => rfl

omit [DecidableEq Tid] [Fintype Tid] in
theorem goesOn_of_act (hp : inCall p = true) {f : Shared → Choice → Option (Shared × Pc)}
    (hi : code p = .act f) {e : Choice} {r : Shared × Pc} (hf : f d e = some r) :
    Choice.goesOn e = true := by
  have of_stmt {g : (Nat → Byte) → Shared → Shared × Pc} (hg : stmt g = .act f) :
      Choice.goesOn e = true := by
    obtain rfl := Instr.act.inj hg
    cases e with
    | junk | failed => rfl
    | getLog | addToLog => cases hf
  have of_malloc {p : Pc} {size : Shared → Nat} {g : (Nat → Byte) → Shared → Shared × Pc}
      (hg : Malloc p size g = .act f) : Choice.goesOn e = true := by
    obtain rfl := Instr.act.inj hg
    cases e with
    | junk | failed => rfl
    | getLog | addToLog => cases hf
  cases p with
  | idle => cases hp
  | addTest c data n => exact of_stmt hi
  | addRet c => exact of_stmt hi
  | get c s =>
      cases s with
      | lock | wait | unlock | endLock | signal | endUnlock => cases hi
      | malloc => exact of_malloc hi
      | _ => exact of_stmt hi
  | add c e s =>
      cases s with
      | lock | wait | unlock | signal | broadcast => cases hi
      | malloc m => exact of_malloc hi
      | _ => exact of_stmt hi

omit [Fintype Tid] in
theorem exec_closing (h : Exec (machine Tid) t σ τ) (hp : inCall (σ.place t) = true) :
    Exec (closing Tid) t σ τ := by
  have code_closing {p : Pc} {i : LogInstr} (hi : code p = i) :
      (closing Tid).code t p = i.restrict Choice.goesOn := by
    rw [← hi]
    rfl
  cases h with
  | relock hφ free => exact .relock hφ free
  | lock hφ hi free => exact .lock hφ (code_closing hi) free
  | unlock hφ hi => exact .unlock hφ (code_closing hi)
  | wait hφ hi => exact .wait hφ (code_closing hi)
  | signal W hφ hi hW one => exact .signal W hφ (code_closing hi) hW one
  | broadcast W hφ hi hW => exact .broadcast W hφ (code_closing hi) hW
  | act e hφ hi hf =>
      rw [place_of_run hφ] at hp
      refine .act e hφ (code_closing hi) ?_
      rw [if_pos (goesOn_of_act hp hi hf)]
      exact hf

theorem total_closing (hr : Reachable (machine Tid) (start Tid byte) σ)
    (h : Reachable (closing Tid) σ τ) : total τ ≤ total σ := by
  refine h.invariant (I := fun τ => total τ ≤ total σ) le_rfl fun υ τ hυ ih hs => ?_
  have hrυ := hr.trans (restrict_reachable hυ)
  cases hs with
  | exec t live he =>
      have hcall := inCall_of_closing hrυ he
      refine (exec_total hrυ (exec_restrict he) ?_).trans ih
      rintro hidle
      rw [hidle] at hcall
      cases hcall
  | spurious u live he =>
      obtain ⟨hpl, hd, -⟩ := spurious_place he
      rwa [total, hpl, hd]

/-- How many steps the calls of all threads have left. -/
def allowance (σ : LogState Tid) : Int :=
  energy (left (total σ) (wakeup * Fintype.card Tid)) wakeup spare σ

/-- Without new calls the threads take boundedly many steps, however they are scheduled,
and when none can go on all calls have returned; a `Malloc` that fails ends the process. -/
theorem log_calls_finish (h : Reachable (machine Tid) (start Tid byte) σ) :
    (∀ k s τ, Runs (closing Tid) (fun _ => false) σ k s τ → (k : Int) ≤ allowance σ + wakeup * s) ∧
    ∀ τ, Reachable (closing Tid) σ τ → (∀ t υ, ¬ Exec (closing Tid) t τ υ) →
      ∀ t, τ.place t = .idle := by
  constructor
  · intro k s τ hruns
    have hspends := hruns.spends (g := left (total σ) (wakeup * Fintype.card Tid)) (w := wakeup)
      (D := spare) fun υ hυ live t p hp => by
        have htotal := total_closing h hυ
        exact code_spends (h.trans (restrict_reachable hυ)) live htotal hp
    have hspare : 0 ≤ spare τ.data := by
      rw [spare]
      split <;> decide
    have hpos : 0 ≤ energy (left (total σ) (wakeup * Fintype.card Tid)) wakeup spare τ := by
      rw [energy]
      exact add_nonneg hspare (Finset.sum_nonneg fun u _ => Int.natCast_nonneg _)
    rw [allowance]
    omega
  · intro τ hτ hstuck t
    by_contra hidle
    have hcall : inCall (τ.place t) = true := by
      generalize τ.place t = p at hidle
      cases p with
      | idle => exact absurd rfl hidle
      | _ => rfl
    obtain ⟨u, υ, hu, hexec⟩ := moves_of_inCall (h.trans (restrict_reachable hτ)) hcall
    exact hstuck u υ (exec_closing hexec hu)

theorem log_calls_finish_asleep : ∃ σ, Reachable (machine (Fin 3)) (start (Fin 3) fun _ => 0) σ ∧
    Sleeps σ .readersCond 2 ∧ Sleeps σ .writersCond 0 ∧
    (∀ k s τ, Runs (closing (Fin 3)) (fun _ => false) σ k s τ →
      (k : Int) ≤ allowance σ + wakeup * s) ∧
    ∀ τ, Reachable (closing (Fin 3)) σ τ → (∀ t υ, ¬ Exec (closing (Fin 3)) t τ υ) →
      ∀ t, τ.place t = .idle := by
  have h := replay_reachable (Option.some_get bothAsleep_runs).symm
  refine ⟨_, h, sleeps_iff.1 (by decide +kernel), sleeps_iff.1 (by decide +kernel), ?_⟩
  exact log_calls_finish h

end WebServer.LogTermination
