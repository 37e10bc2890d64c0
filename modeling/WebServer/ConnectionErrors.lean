import WebServer.Framing
import WebServer.QueueDrain

namespace WebServer.ConnectionErrors

open Monitor RequestQueue QueueRefinement QueueWakeups QueueDrain
open Message Process Segel RequestHandle Answers HeaderReading Framing

/-- A connection, and what the local variables of `requestHandle` hold when it is
taken up. -/
structure Connection where
  buf : Bytes
  old : Locals
  world : World

/-- No read or write on the connection fails, its headers end, and the other calls
that its request makes succeed. -/
structure Sound (c : Connection) : Prop where
  reads : Clean c.world.input
  writes : .failed ∉ c.world.writes
  headers : HeadersEnd c.old (received c.world.input)
  works : ∀ reply, replyTo c.buf c.old c.world = some reply → reply.Works c.world.os

def outcome : Result World ThreadsStats → Option Outcome
  | .returned stats _ => some (.returned stats)
  | .exited _ => some .exited
  | .unfinished => none

/-- `requestHandle` on connections of a kind; a call needs enough fuel. -/
def handler (P : Connection → Prop) : Handler (Nat × {c // P c}) :=
  fun _ arrival dispatch stats (fuel, c) =>
    outcome (requestHandle fuel c.1.buf c.1.old arrival dispatch stats c.1.world)

theorem outcome_exited {r : Result World ThreadsStats} (h : outcome r = some .exited) :
    ∃ w, r = .exited w := by
  cases r with
  | returned stats w => cases h
  | exited w => exact ⟨w, rfl⟩
  | unfinished => cases h

section

variable {w w' : World} {arrival dispatch : Timeval} {stats : ThreadsStats} {old : Locals}
  {buf : Bytes} {fuel : Nat}

theorem requestHandle_not_exited (hc : Clean w.input) (hw : .failed ∉ w.writes)
    (hworks : ∀ reply, replyTo buf old w = some reply → reply.Works w.os) :
    requestHandle fuel buf old arrival dispatch stats w ≠ .exited w' := by
  by_cases hs : received w.input = []
  · have hr := @RioReadlineb_eof rioReadinitb w buf hc hs
    simp [requestHandle, hr]
  · obtain ⟨n, rio₁, input₁, hr, -, hc₁, hn⟩ := request_line buf hc hs
    have answered (hhdrs : isGet (sscanf (cstr (cutLine (MAXLINE - 1) (received w.input)).1) old) =
          true → ∃ rio' w₂, requestReadhdrs fuel old.hdrs rio₁ { w with input := input₁ } =
            .returned rio' w₂) :
        requestHandle fuel buf old arrival dispatch stats w ≠ .exited w' := by
      intro hexit
      have hd := (requestHandle_answered hr hn hhdrs).exited hexit
      exact hw (hd.2 (hworks _ (replyTo_eq_some.2 ⟨n, _, rio₁, _, hr, hn, rfl⟩)))
    by_cases hget : isGet (sscanf (cstr (cutLine (MAXLINE - 1) (received w.input)).1) old) = true
    · by_cases hu : requestReadhdrs fuel old.hdrs rio₁ { w with input := input₁ } = .unfinished
      · rw [isGet] at hget
        rw [requestHandle, bind_apply, hr]
        dsimp only
        rw [if_neg (by omega), if_pos hget, bind_apply, hu]
        simp
      · exact answered fun _ => requestReadhdrs_returns (w := { w with input := input₁ }) hc₁ hu
    · exact answered fun h => absurd h hget

end

theorem sound_survives : Survives (handler Sound) := by
  rintro connfd arrival dispatch stats ⟨fuel, c, hc⟩ h
  obtain ⟨w', hx⟩ := outcome_exited h
  exact requestHandle_not_exited hc.reads hc.writes hc.works hx

theorem sound_handled (c : {c // Sound c}) (connfd : Int) (arrival dispatch : Timeval)
    (stats : ThreadsStats) : ∃ fuel stats',
      handler Sound connfd arrival dispatch stats (fuel, c) = some (.returned stats') := by
  obtain ⟨fuel, stats', w', h⟩ := @requestHandle_returns _ arrival dispatch stats _ _ c.2.reads
    c.2.headers c.2.writes c.2.works
  exact ⟨fuel, stats', congrArg outcome h⟩

def silent : Connection := ⟨[], unset, connection .bare [] []⟩

theorem silent_sound : Sound silent where
  reads := by simp [silent, connection, Clean]
  writes := by simp [silent, connection]
  headers h := absurd rfl h
  works reply h := by
    have hnone : replyTo silent.buf silent.old silent.world = none := rfl
    rw [hnone] at h
    cases h

theorem sound_returns : Returns (handler Sound) := by
  intro connfd arrival dispatch stats
  obtain ⟨fuel, stats', h⟩ := sound_handled ⟨silent, silent_sound⟩ connfd arrival dispatch stats
  exact ⟨_, stats', h⟩

variable {n cap : Nat} {Script : Type} {handle : Handler Script} {junk : Nat → Request}
  {σ : QueueState n}

theorem edge_running {t : Tid n} {p q : Pc} {d d' : Shared n} (h : Edge handle t d p q d')
    (hne : q ≠ p) : d'.running = d.running := by
  cases h with
  | acceptFailed | exited | closeFailed => exact absurd rfl hne
  | _ => rfl

theorem running (hs : Survives handle)
    (h : Reachable ((machine n handle).restrict Choice.works) (start n junk cap) σ) :
    σ.data.running = true := by
  refine h.place_invariant (I := fun _ d => d.running = true) rfl fun f d t q d' hi hg => ?_
  rw [edge_running (goes_edge (goes_restrict hg)) (works_moves hs hg)]
  exact hi

/-- While all connections are sound the server runs, its workers give each request
one complete turn, and it stops only when no request is left. -/
theorem failure_contained (hcap : 1 ≤ cap) (hn : 1 ≤ n)
    (h : Reachable ((machine n (handler Sound)).restrict Choice.works) (start n junk cap) σ) :
    σ.data.running = true ∧ (∀ t, Served t σ.data.trace (σ.place t)) ∧
    (∀ c connfd arrival dispatch stats, ∃ fuel stats',
      handler Sound connfd arrival dispatch stats (fuel, c) = some (.returned stats')) ∧
    ∃ bound perSupply, ∀ k s τ,
      Runs ((machine n (handler Sound)).restrict Choice.works) accepting σ k s τ →
        k ≤ bound + perSupply * s ∧ (Proceeds (handler Sound) τ ∨ Idle τ) := by
  refine ⟨running sound_survives h, served (restrict_reachable h), sound_handled,
    (energy (pcEnergy n) 6 pendingEnergy σ).toNat, handOut n + perRequest n + 15, ?_⟩
  intro k s τ hr
  exact ⟨bounded_work hcap sound_survives h hr,
    proceeds_or_idle hcap hn sound_returns (restrict_reachable (h.trans hr.reachable))⟩

def fetch : Connection := ⟨[], unset, fetching⟩

theorem fetch_sound : Sound fetch where
  reads := by simp [fetch, fetching, client, connection, Clean]
  writes := by simp [fetch, fetching]
  headers := headersEnd_crlf (by decide +kernel)
  works reply h := by
    have hreply : replyTo fetch.buf fetch.old fetch.world = some (.file (str "./public/a") 5) := by
      decide +kernel
    obtain rfl := Option.some.inj (hreply.symm.trans h)
    exact ⟨4, by decide +kernel, rfl, rfl, rfl, by decide, by decide⟩

def serveFetch : List (Tid 2 × Choice (Nat × {c // Sound c})) :=
  serveOne ++ [(.worker 0, .ok), (.worker 0, .script (4, ⟨fetch, fetch_sound⟩)), (.worker 0, .ok)]

theorem serveFetch_runs : (((machine 2 (handler Sound)).restrict Choice.works).replay serveFetch
    (start 2 (fun _ => ⟨0, 0, 0⟩) 2)).isSome = true := by
  decide +kernel

theorem failure_contained_fetch : ∃ σ,
    Reachable ((machine 2 (handler Sound)).restrict Choice.works) (start 2 (fun _ => ⟨0, 0, 0⟩) 2) σ ∧
      eventsOf (.worker 0) σ.data.trace =
        [.dequeued (.worker 0) ⟨4, 4, 0⟩, .returned (.worker 0) ⟨4, 4, 0⟩,
          .closed (.worker 0) ⟨4, 4, 0⟩] ∧
      σ.data.queue.dequeueingSize = 1 ∧ σ.data.running = true ∧ ∃ bound perSupply, ∀ k s τ,
        Runs ((machine 2 (handler Sound)).restrict Choice.works) accepting σ k s τ →
          k ≤ bound + perSupply * s ∧ (Proceeds (handler Sound) τ ∨ Idle τ) := by
  have h := replay_reachable (Option.some_get serveFetch_runs).symm
  obtain ⟨hrun, -, -, hbound⟩ := failure_contained (by decide) (by decide) h
  exact ⟨_, h, by decide +kernel, by decide +kernel, hrun, hbound⟩

def reset : Connection := ⟨[], unset, connection .bare [.failed] []⟩

def serveReset : List (Tid 2 × Choice (Nat × {_c : Connection // True})) :=
  serveOne ++ [(.worker 0, .ok), (.worker 0, .script (0, ⟨reset, trivial⟩))]

theorem serveReset_runs : (((machine 2 (handler fun _ => True)).restrict Choice.works).replay serveReset
    (start 2 (fun _ => ⟨0, 0, 0⟩) 2)).isSome = true := by
  decide +kernel

/-- The reset of one connection ends the process, with the other request pending. -/
theorem reset_ends_server : ∃ σ,
    Reachable ((machine 2 (handler fun _ => True)).restrict Choice.works)
      (start 2 (fun _ => ⟨0, 0, 0⟩) 2) σ ∧
      enqueued σ.data.trace = [⟨4, 4, 0⟩, ⟨5, 5, 0⟩] ∧ dequeued σ.data.trace = [⟨4, 4, 0⟩] ∧
      σ.data.running = false ∧
      ∀ τ, ¬ Step ((machine 2 (handler fun _ => True)).restrict Choice.works) σ τ := by
  have h := replay_reachable (Option.some_get serveReset_runs).symm
  refine ⟨_, h, by decide +kernel, by decide +kernel, by decide +kernel, ?_⟩
  have hdead : ((((machine 2 (handler fun _ => True)).restrict Choice.works).replay serveReset
    (start 2 (fun _ => ⟨0, 0, 0⟩) 2)).get serveReset_runs).data.running = false := by decide +kernel
  intro τ hs
  cases hs with
  | exec t live hs => exact absurd (hdead.symm.trans live) (by decide)
  | spurious u live hs => exact absurd (hdead.symm.trans live) (by decide)

end WebServer.ConnectionErrors
