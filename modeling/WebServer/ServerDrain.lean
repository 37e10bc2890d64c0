import Mathlib.Data.DFinsupp.WellFounded
import WebServer.LogPriority
import WebServer.LogTermination
import WebServer.Numerals
import WebServer.PendingCalls

namespace WebServer.ServerDrain

open Monitor Message Process RequestCalls Server Connections Accounting LogReaders
open PendingCalls LogTermination
open LogLock (inCall)
open QueueDrain (pcEnergy pendingEnergy accepting Survives)
open QueueWakeups (Proceeds)
open RequestQueue (QueueState Tid Timeval ThreadsStats Request Handler Outcome Choice)
open ServedRequests (records_reachable)
open ServerLog (LogState int32)

variable {n cap : Nat}

def returning : Handler Outcome
  | _, _, _, _, .returned stats => some (.returned stats)
  | _, _, _, _, .exited => none

/-- The threads of the server go on, and no call fails. A new connection and a wakeup that
no thread has asked for come from outside, and so does what the children do. A request
whose fuel is used up has header lines that do not end, and goes on reading them. -/
inductive Own : System n → System n → Prop
  | queue {s s' τ} (t : Tid n) (a : Frame) (live : s.queue.data.running = true)
      (old : accepting (s.queue.place t) = false)
      (h : Exec ((RequestQueue.machine n returning).restrict Choice.works) t s.queue τ)
      (he : s.queueEffect τ a t (s.queue.place t) (τ.place t) = some s') : Own s s'
  | log {s s' μ} (i : Fin n) (live : s.queue.data.running = true)
      (h : Exec (logMachine n) i s.log μ)
      (he : s.logEffect μ i (s.log.place i) (μ.place i) = some s') : Own s s'
  | call {s s' stats req dispatch c k} (i : Fin n) (a : Answer)
      (live : s.queue.data.running = true)
      (hp : s.queue.place (.worker i) = .worker stats (.handle req dispatch))
      (hr : s.rest i = some (.call c k)) (he : s.callEffect i req.connfd c k a = some s') : Own s s'
  | headers {s} (i : Fin n) (live : s.queue.data.running = true) (hr : s.rest i = some .stuck) :
      Own s s

variable {junk : Nat → Request} {byte : Nat → ServerLog.Byte} {listenfd : Int} {s s' : System n}
  {i : Fin n} {μ : LogState (Fin n)}

/-- A step of a program that the server has started. -/
def Programs (s s' : System n) : Prop := ∃ pid m, s.childEffect pid m = some s'

theorem exec_queueMachine {t : Tid n} {σ τ : QueueState n}
    (h : Exec ((RequestQueue.machine n returning).restrict Choice.works) t σ τ) :
    Exec (queueMachine n) t σ τ := by
  refine exec_within (exec_restrict h) fun p _ => ?_
  cases p with
  | main p => exact .inl rfl
  | worker stats p =>
      cases p with
      | handle req dispatch =>
          refine .inr ⟨_, _, rfl, rfl, fun d e r hr => ?_⟩
          cases e with
          | script o =>
              cases o with
              | returned stats' => exact hr
              | exited => cases hr
          | _ => cases hr
      | _ => exact .inl rfl

theorem Own.reachable (hr : Reachable (start n junk cap byte listenfd) s) (h : Own s s') :
    Reachable (start n junk cap byte listenfd) s' := by
  cases h with
  | queue t a live old h he => exact hr.next (.queue t a live (exec_queueMachine h) he)
  | log i live h he => exact hr.next (.log i live h he)
  | call i a live hp hx he => exact hr.next (.call i a live hp hx he)
  | headers => exact hr

inductive Later : Calls ThreadsStats → Calls ThreadsStats → Prop
  | answered {c : Call} {k : c.Answer → Calls ThreadsStats} {x : Calls ThreadsStats} (a : c.Answer)
      (next : k a = x) : Later x (.call c k)
  | wrote (usrbuf rest : Bytes) {m m' : Nat} (k : Unit → Calls ThreadsStats) (less : m' < m) :
      Later (.call (.rioWriten rest m') k) (.call (.rioWriten usrbuf m) k)

theorem later_wellFounded : WellFounded Later := by
  refine ⟨fun x => ?_⟩
  induction x with
  | ret | stuck => exact ⟨_, fun y hy => by cases hy⟩
  | call c k ih =>
      cases c with
      | rioWriten usrbuf m =>
          induction m using Nat.strong_induction_on generalizing usrbuf with
          | h m ihm =>
              refine ⟨_, fun y hy => ?_⟩
              cases hy with
              | answered a next => exact next ▸ ih a
              | wrote _ rest _ less => exact ihm _ less rest k ih
      | _ =>
          refine ⟨_, fun y hy => ?_⟩
          cases hy with
          | answered a next => exact next ▸ ih a

def doing (s : System n) (i : Fin n) : Calls ThreadsStats × Nat :=
  ((s.rest i).getD .stuck, if inCall (s.log.place i) then 0 else 1)

/-- What the server has left to do, at the queue, for its requests and at the log -/
def rank (s : System n) : Nat × (Fin n → Calls ThreadsStats × Nat) × Nat :=
  ((energy (pcEnergy n) 6 pendingEnergy s.queue).toNat, doing s, (allowance s.log).toNat)

abbrev Lower : (r r' : Nat × (Fin n → Calls ThreadsStats × Nat) × Nat) → Prop :=
  Prod.Lex (· < ·) (Prod.Lex (Pi.Lex (· < ·) fun {_} => Prod.Lex Later (· < ·)) (· < ·))

theorem lower_wellFounded : WellFounded (Lower (n := n)) :=
  wellFounded_lt.prod_lex
    ((Pi.Lex.wellFounded _ fun _ => later_wellFounded.prod_lex wellFounded_lt).prod_lex
      wellFounded_lt)

theorem survives : Survives returning := by
  intro connfd arrival dispatch stats o
  cases o <;> simp [returning]

theorem left_mono {B B' : Nat} (h : B ≤ B') (W : Nat) (p : ServerLog.Pc) :
    left B W p ≤ left B' W p := by
  cases p with
  | idle | addRet => exact le_rfl
  | addTest c data m =>
      simp only [left]
      omega
  | get c p =>
      cases p <;> simp only [left, GetPc.left] <;> omega
  | add c e p =>
      cases p <;> simp only [left, AddPc.left] <;> omega

theorem charge_mono {g g' : ServerLog.Pc → Nat} (h : ∀ p, g p ≤ g' p) (w : Nat)
    (φ : Phase ServerLog.LogCond ServerLog.Pc) : φ.charge g w ≤ φ.charge g' w := by
  cases φ with
  | run p => exact h p
  | woken p => exact Nat.succ_le_succ (h p)
  | asleep c p =>
      have hp := h p
      simp only [charge_asleep]
      omega

theorem allowance_falls {σ τ : LogState (Fin n)}
    (hr : Monitor.Reachable (logMachine n) (ServerLog.start (Fin n) byte) σ)
    (live : σ.data.running = true) (h : Exec (logMachine n) i σ τ)
    (hp : inCall (σ.place i) = true) : allowance τ < allowance σ := by
  have htotal : total τ ≤ total σ := by
    refine exec_total hr h ?_
    rintro hidle
    rw [hidle] at hp
    cases hp
  have hspends := exec_spends_at (exec_closing h hp) fun p hφ => code_spends hr live le_rfl hφ
  refine lt_of_le_of_lt ?_ hspends
  rw [allowance, energy, energy, add_le_add_iff_left]
  refine Finset.sum_le_sum fun u _ => ?_
  exact_mod_cast charge_mono (left_mono htotal _) _ _

theorem allowance_nonneg (σ : LogState (Fin n)) : 0 ≤ allowance σ := by
  rw [allowance, energy]
  refine add_nonneg ?_ (Finset.sum_nonneg fun u _ => Int.natCast_nonneg _)
  rw [spare]
  split <;> decide

theorem doing_later {x y : Calls ThreadsStats} (hx : s.rest i = some x)
    (hy : s'.rest = Function.update s.rest i (some y)) (hlater : Later y x)
    (hlog : ∀ j, j ≠ i → s'.log.place j = s.log.place j) :
    Pi.Lex (· < ·) (fun {_} => Prod.Lex Later (· < ·)) (doing s') (doing s) := by
  refine ⟨i, fun j hj => ?_, ?_⟩
  · rw [doing, doing, hy, Function.update_of_ne hj.ne, hlog j hj.ne]
  · rw [doing, doing, hy, Function.update_self, hx]
    exact .left _ _ hlater

theorem exec_inCall {σ τ : LogState (Fin n)}
    (hr : Monitor.Reachable (logMachine n) (ServerLog.start (Fin n) byte) σ)
    (h : Exec (logMachine n) i σ τ) : inCall (τ.place i) = true ∨
      (∃ c dst m, σ.place i = .get c (.ret dst m)) ∨ ∃ c, σ.place i = .addRet c := by
  rcases exec_goes h with ⟨hwoken, hpl, -⟩ | ⟨p, q, hφ, hg, hpl⟩
  · rw [hpl]
    rcases LogLock.waiter_place hr (.inr hwoken) with ⟨c, hc⟩ | ⟨c, e, hc⟩ <;>
      exact .inl (by rw [hc]; rfl)
  · rw [hpl, Function.update_self, place_of_run hφ]
    have hedge := ServerLog.goes_edge hg
    generalize τ.data = d at hedge
    cases hedge with
    | retGet c dst m => exact .inr (.inl ⟨c, dst, m, rfl⟩)
    | retAdd c => exact .inr (.inr ⟨c, rfl⟩)
    | _ => exact .inl rfl

theorem logEffect_rest
    (hr : Monitor.Reachable (logMachine n) (ServerLog.start (Fin n) byte) s.log)
    (h : Exec (logMachine n) i s.log μ)
    (he : s.logEffect μ i (s.log.place i) (μ.place i) = some s') :
    inCall (μ.place i) = true ∧ s'.rest = s.rest ∨
      ∃ c k a, s.rest i = some (.call c k) ∧ s'.rest = Function.update s.rest i (some (k a)) := by
  have hcall := exec_inCall hr h
  generalize s.log.place i = p at he hcall
  generalize μ.place i = q at he hcall
  unfold System.logEffect at he
  split at he
  case h_1 =>
    split at he
    · obtain rfl := Option.some.inj he
      exact .inl ⟨rfl, rfl⟩
    · cases he
  case h_2 =>
    split at he
    · obtain ⟨-, hs⟩ := Option.ite_none_right_eq_some.1 he
      obtain rfl := Option.some.inj hs
      exact .inl ⟨rfl, rfl⟩
    · cases he
  case h_4 | h_8 =>
    split at he
    · next hrest =>
      obtain rfl := Option.some.inj he
      exact .inr ⟨_, _, _, hrest, rfl⟩
    · cases he
  case h_6 | h_7 => cases he
  case h_3 | h_5 =>
    obtain rfl := Option.some.inj he
    exact .inl ⟨rfl, rfl⟩
  case h_9 _ _ _ hgot _ _ _ hadded =>
    obtain rfl := Option.some.inj he
    cases q with
    | idle =>
        rcases hcall with hq | ⟨c, dst, m, rfl⟩ | ⟨c, rfl⟩
        · cases hq
        · exact absurd rfl (hgot _ _ _ rfl)
        · exact absurd rfl (hadded _ rfl)
    | _ => exact .inl ⟨rfl, rfl⟩

theorem callEffect_rest {connfd : Int} {c : Call} {k : c.Answer → Calls ThreadsStats} {a : Answer}
    (he : s.callEffect i connfd c k a = some s') :
    ∃ y, s'.rest = Function.update s.rest i (some y) ∧ Later y (.call c k) := by
  unfold System.callEffect at he
  split at he
  case h_2 =>
    split at he
    · obtain ⟨⟨hpos, hle, -⟩, hs⟩ := Option.ite_none_right_eq_some.1 he
      obtain rfl := Option.some.inj hs
      exact ⟨_, rfl, .wrote _ _ _ (by omega)⟩
    · cases he
  case h_5 =>
    obtain ⟨-, hs⟩ := Option.ite_none_right_eq_some.1 he
    obtain rfl := Option.some.inj hs
    exact ⟨_, rfl, .answered _ rfl⟩
  case h_11 =>
    split at he
    · obtain ⟨-, hs⟩ := Option.ite_none_right_eq_some.1 he
      obtain rfl := Option.some.inj hs
      exact ⟨_, rfl, .answered _ rfl⟩
    · cases he
  case h_12 => cases he
  all_goals
    obtain rfl := Option.some.inj he
    exact ⟨_, rfl, .answered _ rfl⟩

theorem childEffect_rest {pid : Nat} {m : ChildMove} (he : s.childEffect pid m = some s') :
    s'.rest = s.rest := by
  unfold System.childEffect at he
  split at he
  · cases he
  split at he
  · cases he
  cases m with
  | output fd bytes =>
      dsimp only at he
      split at he
      · obtain ⟨-, hs⟩ := Option.ite_none_right_eq_some.1 he
        obtain rfl := Option.some.inj hs
        rfl
      · obtain rfl := Option.some.inj he
        rfl
  | dup2 oldfd newfd =>
      obtain ⟨-, hs⟩ := Option.ite_none_right_eq_some.1 he
      obtain rfl := Option.some.inj hs
      rfl
  | fork | close | stop | resume | exit =>
      obtain rfl := Option.some.inj he
      rfl

theorem exec_away {σ τ : LogState (Fin n)} (h : Exec (logMachine n) i σ τ) {j : Fin n}
    (hj : j ≠ i) : τ.place j = σ.place j := by
  rcases exec_goes h with ⟨-, hpl, -⟩ | ⟨p, q, -, -, hpl⟩
  · rw [hpl]
  · rw [hpl, Function.update_of_ne hj]

theorem own_lower (hcap : 1 ≤ cap) (hr : Reachable (start n junk cap byte listenfd) s)
    (hends : ∀ i, s.rest i ≠ some .stuck) (h : Own s s') : Lower (rank s') (rank s) := by
  have hr' := h.reachable hr
  cases h with
  | queue t a live old h he =>
      obtain ⟨hqueue, -⟩ := queueEffect_parts he
      have hlt := exec_spends (g := pcEnergy n) (w := 6) (D := pendingEnergy) h fun p hp =>
        QueueDrain.code_spends survives t (by rwa [place_of_run hp] at old)
      have hpos := QueueDrain.energy_nonneg hcap (machines_reachable hr').queue
      rw [hqueue] at hpos
      refine .left _ _ ?_
      rw [hqueue]
      omega
  | @log s' μ i live h he =>
      obtain ⟨hqueue, rfl⟩ := logEffect_parts he
      have hlog := (machines_reachable hr).log
      rw [rank, rank, hqueue]
      refine .right _ ?_
      rcases logEffect_rest hlog h he with ⟨hstays, hrest⟩ | ⟨c, k, a, hx, hy⟩
      · cases hp : inCall (s.log.place i) with
        | true =>
            have hsame : doing s' = doing s := by
              funext j
              by_cases hj : j = i
              · rw [hj, doing, doing, hrest, hstays, hp]
              · rw [doing, doing, hrest, exec_away h hj]
            have hlt := allowance_falls hlog (machines_reachable hr).live h hp
            have hpos := allowance_nonneg s'.log
            rw [hsame]
            exact .right _ (by omega)
        | false =>
            refine .left _ _ ⟨i, fun j hj => ?_, ?_⟩
            · rw [doing, doing, hrest, exec_away h hj.ne]
            · rw [doing, doing, hrest, hstays, hp]
              exact .right _ Nat.zero_lt_one
      · exact .left _ _ (doing_later hx hy (.answered a rfl) fun j hj => exec_away h hj)
  | call i a live hp hx he =>
      obtain ⟨hqueue, hlog⟩ := callEffect_parts he
      obtain ⟨y, hy, hlater⟩ := callEffect_rest he
      rw [rank, rank, hqueue]
      exact .right _ (.left _ _ (doing_later hx hy hlater fun j _ => by rw [hlog]))
  | headers i live hx => exact absurd hx (hends i)

theorem programs_rank (h : Programs s s') : rank s' = rank s := by
  obtain ⟨pid, m, he⟩ := h
  obtain ⟨hqueue, hlog⟩ := childEffect_parts he
  have hdoing : doing s' = doing s := by
    funext i
    rw [doing, doing, childEffect_rest he, hlog]
  rw [rank, rank, hqueue, hlog, hdoing]

section

variable {f : Nat → System n} (hcap : 1 ≤ cap)
  (h : Reachable (start n junk cap byte listenfd) (f 0))
  (hsteps : ∀ m, Own (f m) (f (m + 1)) ∨ Programs (f m) (f (m + 1)))

include h hsteps

theorem going_reachable (m : Nat) : Reachable (start n junk cap byte listenfd) (f m) := by
  induction m with
  | zero => exact h
  | succ m ih =>
      rcases hsteps m with hown | ⟨pid, move, he⟩
      · exact hown.reachable ih
      · exact ih.next (.child pid move he)

include hcap

theorem comes_to_rest (hends : ∀ m i, (f m).rest i ≠ some .stuck) :
    ∃ N, ∀ m, N ≤ m → Programs (f m) (f (m + 1)) := by
  refine finitely_often lower_wellFounded rank fun m => ?_
  rcases hsteps m with hown | hprog
  · exact .inl (own_lower hcap (going_reachable h hsteps m) (hends m) hown)
  · exact .inr ⟨hprog, programs_rank hprog⟩

end

/-- The header lines of a request that worker `i` reads have not ended. -/
def Endless (s : System n) (i : Fin n) : Prop :=
  s.rest i = some .stuck ∧ (s.task (s.serving i)).Endless (s.made (s.serving i))

theorem stuck_endless (hcap : 1 ≤ cap) (h : Reachable (start n junk cap byte listenfd) s)
    (hrest : s.rest i = some .stuck) : Endless s i := by
  obtain ⟨W, hW⟩ := records_reachable hcap h
  obtain ⟨hgoing, -⟩ := hW.going i _ hrest
  exact ⟨hrest, hgoing.follows hgoing.usual⟩

theorem logEffect_some (hat : AtLog s.use s.rest) (hp : inCall (s.log.place i) = true)
    (hm : atMalloc (s.log.place i) = false) :
    ∃ s', s.logEffect μ i (s.log.place i) (μ.place i) = some s' := by
  have hdoing := hat i
  rw [System.use] at hdoing
  generalize s.log.place i = p at hp hm hdoing
  generalize μ.place i = q
  unfold System.logEffect
  split
  case h_1 | h_2 => cases hp
  case h_6 | h_7 => cases hm
  case h_4 =>
    obtain ⟨k, hk⟩ := hdoing
    rw [hk]
    exact ⟨_, rfl⟩
  case h_8 =>
    obtain ⟨bs, len, k, hk⟩ := hdoing
    rw [hk]
    exact ⟨_, rfl⟩
  all_goals exact ⟨_, rfl⟩

/-- The log is far from what `Malloc` can give. -/
def Room (s : System n) : Prop := (LogBuffer.logged s.log.data.trace).length < 2 ^ 61

theorem malloc_gives (hr : Monitor.Reachable (logMachine n) (ServerLog.start (Fin n) byte) s.log)
    (hroom : Room s) {p : ServerLog.Pc} (hp : s.log.phase i = .run p) (hm : atMalloc p = true) :
    ∃ μ s', Exec (logMachine n) i s.log μ ∧
      s.logEffect μ i (s.log.place i) (μ.place i) = some s' := by
  have goes {q : ServerLog.Pc} {d : ServerLog.Shared} (hacts : LogPriority.Acts p s.log.data q d)
      (he : ∀ μ, s.logEffect μ i p q = some { s with log := μ }) : ∃ μ s',
        Exec (logMachine n) i s.log μ ∧ s.logEffect μ i (s.log.place i) (μ.place i) = some s' := by
    refine ⟨LogPriority.afterAct s.log i q d, { s with log := LogPriority.afterAct s.log i q d },
      hacts.exec hp, ?_⟩
    rw [place_of_run hp, place_of_run (p := q) (by simp [LogPriority.afterAct])]
    exact he _
  cases p with
  | get c st =>
      cases st with
      | malloc =>
          obtain ⟨hrep, hcap⟩ := LogAtomic.rep_of_counted hr (t := i) (by rw [place_of_run hp]; rfl)
          have hlen := LogContent.Rep.length_lt hrep hcap
          have hsize : s.log.data.log.size = _ := hrep.size
          have hsmall : ServerLog.sizeT (s.log.data.log.size + 1) < 2 ^ 63 := by
            rw [LogContent.sizeT_small (by omega)]
            omega
          exact goes (LogPriority.acts_malloc rfl hsmall rfl) fun μ => rfl
      | _ => cases hm
  | add c e st =>
      cases st with
      | malloc m =>
          have hsized := (LogContent.sized_annotated hr).2 i _ hp rfl
          have hhigh := hsized.content.1.high
          have hfits := e.fits
          rw [Room] at hroom
          exact goes (LogPriority.acts_malloc rfl (by show m < _; omega) rfl) fun μ => rfl
      | _ => cases hm
  | _ => cases hm

theorem inCall_own (h : Reachable (start n junk cap byte listenfd) s)
    (live : s.queue.data.running = true) (hroom : Room s) (hp : inCall (s.log.place i) = true)
    (hexec : Exec (logMachine n) i s.log μ) : ∃ s', Own s s' := by
  have hlog := (machines_reachable h).log
  cases hm : atMalloc (s.log.place i) with
  | false =>
      obtain ⟨s', he⟩ := logEffect_some (atLog_reachable h) hp hm
      exact ⟨s', .log i live hexec he⟩
  | true =>
      obtain ⟨p, hφ⟩ : ∃ p, s.log.phase i = .run p := by
        have awake {q : ServerLog.Pc}
            (hq : (∃ c, s.log.phase i = .asleep c q) ∨ s.log.phase i = .woken q) :
            atMalloc q = false := by
          rcases LogLock.waiter_place hlog hq with ⟨c, rfl⟩ | ⟨c, e, rfl⟩ <;> rfl
        rw [State.place] at hm
        cases hφ : s.log.phase i with
        | run p => exact ⟨p, rfl⟩
        | asleep c q =>
            rw [hφ] at hm
            exact absurd (hm.symm.trans (awake (.inl ⟨c, hφ⟩))) (by simp)
        | woken q =>
            rw [hφ] at hm
            exact absurd (hm.symm.trans (awake (.inr hφ))) (by simp)
      rw [place_of_run hφ] at hm
      obtain ⟨μ', s', hexec', he⟩ := malloc_gives hlog hroom hφ hm
      exact ⟨s', .log i live hexec' he⟩

theorem int32_le (m : Nat) : int32 m ≤ m := by
  rw [int32, Int.bmod_def]
  omega

theorem entry_length (hcap : 1 ≤ cap) (h : Reachable (start n junk cap byte listenfd) s)
    {bs : Bytes} {len : Int} {k : Unit → Calls ThreadsStats}
    (hx : s.rest i = some (.call (.addToLog bs len) k)) : len = bs.length := by
  obtain ⟨W, hW⟩ := ServedRequests.records_reachable hcap h
  obtain ⟨hgoing, -⟩ := hW.going i _ hx
  exact (hgoing.follows.1 hgoing.usual).2.2.2

theorem idle_runs {σ : LogState (Fin n)}
    (hr : Monitor.Reachable (logMachine n) (ServerLog.start (Fin n) byte) σ)
    (hp : inCall (σ.place i) = false) : σ.phase i = .run .idle := by
  have awake {q : ServerLog.Pc}
      (hq : (∃ c, σ.phase i = .asleep c q) ∨ σ.phase i = .woken q) : inCall q = true := by
    rcases LogLock.waiter_place hr hq with ⟨c, rfl⟩ | ⟨c, e, rfl⟩ <;> rfl
  rw [State.place] at hp
  cases hφ : σ.phase i with
  | run p =>
      rw [hφ] at hp
      cases p with
      | idle => rfl
      | _ => cases hp
  | asleep c q =>
      rw [hφ] at hp
      exact absurd (hp.symm.trans (awake (.inl ⟨c, hφ⟩))) (by simp)
  | woken q =>
      rw [hφ] at hp
      exact absurd (hp.symm.trans (awake (.inr hφ))) (by simp)

theorem log_goes_on (hcap : 1 ≤ cap) (h : Reachable (start n junk cap byte listenfd) s)
    (live : s.queue.data.running = true) (hroom : Room s) {c : Call}
    {k : c.Answer → Calls ThreadsStats} (hx : s.rest i = some (.call c k)) (hc : atLog c = true) :
    ∃ s', Own s s' := by
  have hlog := (machines_reachable h).log
  cases hp : inCall (s.log.place i) with
  | true =>
      obtain ⟨j, μ, hj, hexec⟩ := LogProgress.moves_of_inCall hlog hp
      exact inCall_own h live hroom hj hexec
  | false =>
      have hidle := idle_runs hlog hp
      cases c with
      | getLog =>
          obtain ⟨μ, hexec, hq⟩ : ∃ μ, Exec (logMachine n) i s.log μ ∧
              μ.place i = .get s.log.data.calls .lock :=
            ⟨_, .act .getLog hidle rfl rfl, by simp [State.place, Phase.place]⟩
          refine ⟨{ s with log := μ }, .log i live hexec ?_⟩
          rw [place_of_run hidle, hq]
          simp only [System.logEffect, hx]
      | addToLog bs len =>
          obtain ⟨m, hm⟩ : ∃ m : ServerLog.CInt, m.1 = int32 len :=
            ⟨⟨int32 len, Numerals.int32_range len⟩, rfl⟩
          have hread : ServerLog.Readable (some bs) m := by
            intro bs' hbs
            obtain rfl := Option.some.inj hbs
            rw [hm, entry_length hcap h hx]
            exact int32_le _
          obtain ⟨μ, hexec, hq⟩ : ∃ μ, Exec (logMachine n) i s.log μ ∧
              μ.place i = .addTest s.log.data.calls (some bs) m :=
            ⟨_, .act (ServerLog.Choice.addToLog (some bs) m) hidle rfl (if_pos hread),
              by simp [State.place, Phase.place]⟩
          refine ⟨{ s with log := μ }, .log i live hexec ?_⟩
          rw [place_of_run hidle, hq]
          simp only [System.logEffect, hx]
          exact if_pos ⟨trivial, hm⟩
      | _ => cases hc

theorem handling_runs {σ : QueueState n} {t : Tid n} {stats : ThreadsStats} {req : Request}
    {dispatch : Timeval}
    (hr : Monitor.Reachable (queueMachine n) (RequestQueue.start n junk cap) σ)
    (hp : σ.place t = .worker stats (.handle req dispatch)) :
    σ.phase t = .run (.worker stats (.handle req dispatch)) := by
  have awake {q : RequestQueue.Pc} (hq : (∃ c, σ.phase t = .asleep c q) ∨ σ.phase t = .woken q) :
      q ≠ .worker stats (.handle req dispatch) := by
    rcases QueueRefinement.waiter_place hr hq with ⟨k, rfl⟩ | ⟨r, rfl⟩ | ⟨stats, rfl⟩ <;> simp
  rw [State.place] at hp
  cases hφ : σ.phase t with
  | run p =>
      rw [hφ] at hp
      exact congrArg Phase.run hp
  | asleep c q =>
      rw [hφ] at hp
      exact absurd hp (awake (.inl ⟨c, hφ⟩))
  | woken q =>
      rw [hφ] at hp
      exact absurd hp (awake (.inr hφ))

theorem handling_goes_on (hcap : 1 ≤ cap) (h : Reachable (start n junk cap byte listenfd) s)
    (live : s.queue.data.running = true) (hroom : Room s) {stats : ThreadsStats} {req : Request}
    {dispatch : Timeval}
    (hp : s.queue.place (.worker i) = .worker stats (.handle req dispatch)) :
    (∃ s', Own s s') ∨ HeldUp s i := by
  have hlook : s.look (.worker i) = .handling req := by rw [System.look, hp]; rfl
  obtain ⟨x, hx⟩ := Option.isSome_iff_exists.1 (handles_reachable h i req hlook)
  cases x with
  | stuck => exact .inl ⟨s, .headers i live hx⟩
  | call c k =>
      cases hc : atLog c with
      | true => exact .inl (log_goes_on hcap h live hroom hx hc)
      | false =>
          rcases call_answered hcap h hlook hx hc with ⟨a, s', he⟩ | hheld
          · exact .inl ⟨s', .call i a live hp hx he⟩
          · exact .inr hheld
  | ret stats' =>
      have hrun := handling_runs (machines_reachable h).queue hp
      obtain ⟨τ, hexec, hq⟩ : ∃ τ, Exec ((RequestQueue.machine n returning).restrict Choice.works)
          (.worker i) s.queue τ ∧ τ.place (.worker i) = .worker stats' (.close req) :=
        ⟨_, .act (Choice.script (.returned stats')) hrun rfl rfl,
          by simp [State.place, Phase.place]⟩
      obtain ⟨s', he⟩ : ∃ s', s.queueEffect τ .empty (.worker i) (s.queue.place (.worker i))
          (τ.place (.worker i)) = some s' := by
        rw [hp, hq]
        simp only [System.queueEffect, hx]
        exact ⟨_, if_pos trivial⟩
      exact .inl ⟨s', .queue (.worker i) .empty live (by rw [hp]; rfl) hexec he⟩

theorem queueEffect_some {τ : QueueState n} {t : Tid n} {a : Frame} {p q : RequestQueue.Pc}
    (hp : accepting p = false)
    (hh : ∀ stats req dispatch, p ≠ .worker stats (.handle req dispatch)) :
    ∃ s', s.queueEffect τ a t p q = some s' := by
  unfold System.queueEffect
  split
  case h_1 => cases hp
  case h_5 | h_6 => exact absurd rfl (hh _ _ _)
  all_goals exact ⟨_, rfl⟩

def handles : RequestQueue.Pc → Bool
  | .worker _ (.handle _ _) => true
  | _ => false

def callers (s : System n) : Finset (Fin n) :=
  Finset.univ.filter fun i => handles (s.queue.place (.worker i)) = true

theorem handles_of_holds {p : RequestQueue.Pc} (h : QueueRefinement.holds p = true) :
    handles p = false := by
  cases p with
  | main => rfl
  | worker stats p =>
      cases p with
      | handle => cases h
      | _ => rfl

theorem accepting_of_holds {p : RequestQueue.Pc} (h : QueueRefinement.holds p = true) :
    accepting p = false := by
  cases p with
  | worker => rfl
  | main p =>
      cases p with
      | accept => cases h
      | _ => rfl

theorem exec_own {t : Tid n} {τ : QueueState n} (live : s.queue.data.running = true)
    (hold : accepting (s.queue.place t) = false) (hh : handles (s.queue.place t) = false)
    (h : Exec ((queueMachine n).restrict Choice.works) t s.queue τ) : ∃ s', Own s s' := by
  have hexec : Exec ((RequestQueue.machine n returning).restrict Choice.works) t s.queue τ := by
    refine exec_within h fun p hφ => .inl ?_
    rw [place_of_run hφ] at hh
    cases p with
    | main p => rfl
    | worker stats p =>
        cases p with
        | handle req dispatch => cases hh
        | _ => rfl
  have hnone (stats : ThreadsStats) (req : Request) (dispatch : Timeval) :
      s.queue.place t ≠ .worker stats (.handle req dispatch) := by
    intro hp
    rw [hp] at hh
    cases hh
  obtain ⟨s', he⟩ := @queueEffect_some n s τ t .empty _ (τ.place t) hold hnone
  exact ⟨s', .queue t .empty live hold hexec he⟩

theorem run_own {t : Tid n} {p : RequestQueue.Pc} (live : s.queue.data.running = true)
    (hp : s.queue.phase t = .run p) (hold : accepting p = false) (hh : handles p = false)
    (hlock : QueueRefinement.holds p = true ∨ s.queue.owner = none) : ∃ s', Own s s' := by
  have hne : p ≠ .main .accept := by
    rintro rfl
    cases hold
  have hready : ((RequestQueue.code anyOutcome t p).restrict Choice.works).Ready s.queue :=
    QueueWakeups.ready (fun _ _ _ stats => ⟨.returned stats, stats, rfl⟩) hne hlock
  obtain ⟨τ, hexec⟩ := exec_exists (M := (queueMachine n).restrict Choice.works) hp hready
  rw [← place_of_run hp] at hold hh
  exact exec_own live hold hh hexec

theorem woken_own {t : Tid n} {q : RequestQueue.Pc} (live : s.queue.data.running = true)
    (hr : Monitor.Reachable (queueMachine n) (RequestQueue.start n junk cap) s.queue)
    (hq : s.queue.phase t = .woken q) (free : s.queue.owner = none) : ∃ s', Own s s' := by
  have hpl : s.queue.place t = q := by rw [State.place, hq]; rfl
  have hwaits := QueueRefinement.waiter_place hr (.inr hq)
  refine exec_own (t := t) live ?_ ?_ (.relock hq free)
  · rw [hpl]
    rcases hwaits with ⟨k, rfl⟩ | ⟨r, rfl⟩ | ⟨stats, rfl⟩ <;> rfl
  · rw [hpl]
    rcases hwaits with ⟨k, rfl⟩ | ⟨r, rfl⟩ | ⟨stats, rfl⟩ <;> rfl

theorem contending_run {p : RequestQueue.Pc} (h : QueueWakeups.contending (.run p) = true) :
    ∃ stats, p = .worker stats (.dequeue .lock) := by
  cases p with
  | main => cases h
  | worker stats p =>
      cases p with
      | dequeue e =>
          cases e with
          | lock => exact ⟨stats, rfl⟩
          | _ => cases h
      | _ => cases h

section

variable (h : Reachable (start n junk cap byte listenfd) s)
  (live : s.queue.data.running = true) (hstuck : ∀ s', ¬ Own s s')

include h live hstuck

theorem stuck_free : s.queue.owner = none := by
  cases ho : s.queue.owner with
  | none => rfl
  | some t =>
      have ht := ((QueueRefinement.guarded (machines_reachable h).queue).1 t).2 ho
      cases hφ : s.queue.phase t with
      | asleep c q | woken q =>
          rw [hφ] at ht
          cases ht
      | run p =>
          rw [hφ] at ht
          have hholds : QueueRefinement.holds p = true := ht
          obtain ⟨s', hown⟩ := run_own live hφ (accepting_of_holds hholds)
            (handles_of_holds hholds) (.inl hholds)
          exact absurd hown (hstuck s')

theorem stuck_sleeps (hi : handles (s.queue.place (.worker i)) = false) :
    Sleeps s.queue .notEmpty (.worker i) := by
  have hqueue := (machines_reachable h).queue
  have free := stuck_free h live hstuck
  cases hφ : s.queue.phase (.worker i) with
  | run p =>
      rw [place_of_run hφ] at hi
      have hold : accepting p = false := by
        have hrole := QueueWakeups.role hqueue (.worker i)
        rw [place_of_run hφ] at hrole
        cases p with
        | main p => exact absurd (hrole.1 rfl) (by simp)
        | worker => rfl
      obtain ⟨s', hown⟩ := run_own live hφ hold hi (.inr free)
      exact absurd hown (hstuck s')
  | woken q =>
      obtain ⟨s', hown⟩ := woken_own live hqueue hφ free
      exact absurd hown (hstuck s')
  | asleep c q =>
      rcases QueueWakeups.sleeper_place hqueue ⟨q, hφ⟩ with ⟨-, hmain, -⟩ | ⟨rfl, -⟩
      · cases hmain
      · exact ⟨q, hφ⟩

theorem stuck_waits (hi : handles (s.queue.place (.worker i)) = false) :
    ∃ stats, s.queue.place (.worker i) = .worker stats (.dequeue .check) := by
  rcases QueueWakeups.sleeper_place (machines_reachable h).queue (stuck_sleeps h live hstuck hi) with
    ⟨hc, -⟩ | ⟨-, stats, hp⟩
  · cases hc
  · exact ⟨stats, by rw [State.place, hp]; rfl⟩

theorem stuck_empty (hcap : 1 ≤ cap) (hs : Sleeps s.queue .notEmpty (.worker i)) :
    s.enqueued.length = s.dequeued.length ∧ s.queue.data.queue.dequeueingSize = 0 := by
  have hqueue := (machines_reachable h).queue
  have free := stuck_free h live hstuck
  have hnone : ¬ 0 < s.queue.data.queue.dequeueingSize := by
    intro hpos
    have hcovered := QueueWakeups.pending_covered hcap hqueue free ⟨_, hs⟩
    have hcontends : 0 < countIn QueueWakeups.contending s.queue.phase := by omega
    obtain ⟨t, ht⟩ := countIn_pos.1 hcontends
    cases hφ : s.queue.phase t with
    | asleep c q =>
        rw [hφ] at ht
        cases ht
    | woken q =>
        obtain ⟨s', hown⟩ := woken_own live hqueue hφ free
        exact hstuck s' hown
    | run p =>
        rw [hφ] at ht
        obtain ⟨stats, rfl⟩ := contending_run ht
        obtain ⟨s', hown⟩ := run_own live hφ rfl rfl (.inr free)
        exact hstuck s' hown
  obtain ⟨waiting, he, hd⟩ := QueueDrain.pending_eq hcap hqueue
  rw [System.enqueued, he, List.length_append, System.dequeued]
  omega

theorem stuck_serving {t : Tid n} (ht : QueueRefinement.inService (s.queue.place t) = true) :
    t ∈ (callers s).image Tid.worker := by
  cases t with
  | main =>
      have hrole := (QueueWakeups.role (machines_reachable h).queue .main).2 rfl
      cases hp : s.queue.place .main with
      | main => rw [hp] at ht; cases ht
      | worker => rw [hp] at hrole; cases hrole
  | worker i =>
      refine Finset.mem_image_of_mem _ ?_
      cases hi : handles (s.queue.place (.worker i)) with
      | true => simpa [callers] using hi
      | false =>
          obtain ⟨stats, hp⟩ := stuck_waits h live hstuck hi
          rw [hp] at ht
          cases ht

theorem stuck_held (hcap : 1 ≤ cap) (hroom : Room s) (hi : handles (s.queue.place (.worker i)) = true) :
    HeldUp s i := by
  cases hp : s.queue.place (.worker i) with
  | main => rw [hp] at hi; cases hi
  | worker stats p =>
      cases p with
      | handle req dispatch =>
          rcases handling_goes_on hcap h live hroom hp with ⟨s', hown⟩ | hheld
          · exact absurd hown (hstuck s')
          · exact hheld
      | _ => rw [hp] at hi; cases hi

theorem stuck_accepts (hcap : 1 ≤ cap) (hfew : (callers s).card < min n cap) :
    s.look .main = .accepting ∧ s.enqueued.length = s.dequeued.length := by
  have hqueue := (machines_reachable h).queue
  have free := stuck_free h live hstuck
  obtain ⟨i, -, hi⟩ : ∃ i ∈ Finset.univ, i ∉ callers s := by
    refine Finset.exists_mem_notMem_of_card_lt_card ?_
    rw [Finset.card_univ, Fintype.card_fin]
    omega
  have hwaits : Sleeps s.queue .notEmpty (.worker i) :=
    stuck_sleeps h live hstuck (by simpa [callers] using hi)
  obtain ⟨hlen, hpending⟩ := stuck_empty h live hstuck hcap hwaits
  have hserved : countIn QueueRefinement.inService s.queue.place ≤ (callers s).card := by
    refine (Finset.card_le_card fun t ht => ?_).trans
      (Finset.card_image_le (s := callers s) (f := Tid.worker))
    exact stuck_serving h live hstuck (Finset.mem_filter.1 ht).2
  have hsize : s.queue.data.queue.size < cap := by
    have hserving := QueueRefinement.serving_eq hqueue
    rw [countIn_congr (QueueRefinement.serving_free hqueue free)] at hserving
    omega
  refine ⟨?_, hlen⟩
  have hrole := (QueueWakeups.role hqueue .main).2 rfl
  cases hφ : s.queue.phase (.main : Tid n) with
  | woken q =>
      obtain ⟨s', hown⟩ := woken_own live hqueue hφ free
      exact absurd hown (hstuck s')
  | asleep c q =>
      rcases QueueWakeups.sleeper_place hqueue ⟨q, hφ⟩ with ⟨rfl, -⟩ | ⟨-, stats, hp⟩
      · have hfull := QueueWakeups.sleeping_main hcap hqueue free ⟨q, hφ⟩
        omega
      · rw [State.place, hp] at hrole
        cases hrole
  | run p =>
      rw [place_of_run hφ] at hrole
      rw [System.look, place_of_run hφ]
      cases p with
      | worker => cases hrole
      | main p =>
          cases hold : accepting (.main p) with
          | false =>
              obtain ⟨s', hown⟩ := run_own live hφ hold rfl (.inr free)
              exact absurd hown (hstuck s')
          | true =>
              cases p with
              | accept => rfl
              | _ => cases hold

end

/-- How the server goes on from `s` without new connections. -/
structure Drains (cap : Nat) (s : System n) : Prop where
  /-- It makes finitely many steps of its own, in any order and whatever the programs do
  between them, unless the header lines of a request do not end. -/
  ends : ∀ f : Nat → System n, f 0 = s → (∀ m, Own (f m) (f (m + 1)) ∨ Programs (f m) (f (m + 1))) →
    (∃ N, ∀ m, N ≤ m → Programs (f m) (f (m + 1))) ∨ ∃ m i, Endless (f m) i
  /-- Where it can make none and the log is not huge, each connection has been served, closed
  and finished, or its request is held up, or as many are held up as there are workers or as
  the queue has room for. -/
  settled : s.queue.data.running = true → Room s → (∀ s', ¬ Own s s') → ∀ k < s.accepts,
    (∃ connfd i, life k s.trace = story k connfd i) ∨ (∃ i, HeldUp s i ∧ s.serving i = k) ∨
      ∃ held : Finset (Fin n), (∀ i ∈ held, HeldUp s i) ∧ min n cap ≤ held.card

def busyServer : List (Move 2) := arrive 4 ++ take 0 .empty ++ arrive 5

theorem busyServer_ends :
    ((System.replay busyServer (start 2 (fun _ => ⟨0, 0, 0⟩) 2 (fun _ => 0) 3)).any
      fun s => decide (s.accepts = 2 ∧ connections s = [5, 4])) = true := by
  decide +kernel

end WebServer.ServerDrain
