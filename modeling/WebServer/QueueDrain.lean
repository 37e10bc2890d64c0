import WebServer.Potential
import WebServer.QueueWakeups

namespace WebServer.QueueDrain

open Monitor RequestQueue RingBuffer QueueRefinement QueueWakeups

variable {n cap : Nat} {Script : Type} {handle : Handler Script} {junk : Nat → Request}
  {σ τ : QueueState n} {t u : Tid n}

def eventTid : Event n → Option (Tid n)
  | .enqueued _ => none
  | .dequeued t _ | .returned t _ | .closed t _ | .finished t => some t

def eventsOf (t : Tid n) (tr : List (Event n)) : List (Event n) :=
  tr.filter fun e => decide (eventTid e = some t)

/-- One turn of the loop of `worker_thread`. -/
def cycle (t : Tid n) (r : Request) : List (Event n) :=
  [.dequeued t r, .returned t r, .closed t r, .finished t]

def Tail (t : Tid n) : WorkerPc → List (Event n) → Prop
  | .dequeue (.time r), tail | .dequeue (.unlock r _), tail | .timersub r _, tail
  | .handle r _, tail => tail = [.dequeued t r]
  | .close r, tail => tail = [.dequeued t r, .returned t r]
  | .finish .lock, tail | .finish .size, tail =>
      ∃ r, tail = [.dequeued t r, .returned t r, .closed t r]
  | _, tail => tail = []

/-- A worker has served requests, each in one complete turn, and is in the next one. -/
def Served (t : Tid n) (tr : List (Event n)) : Pc → Prop
  | .main _ => eventsOf t tr = []
  | .worker _ p => ∃ (rs : List Request) (tail : List (Event n)),
      eventsOf t tr = rs.flatMap (cycle t) ++ tail ∧ Tail t p tail

theorem eventsOf_snoc (tr : List (Event n)) (e : Event n) :
    eventsOf t (tr ++ [e]) = eventsOf t tr ++ if eventTid e = some t then [e] else [] := by
  rw [eventsOf, List.filter_append, eventsOf]
  congr 1
  by_cases h : eventTid e = some t <;> simp [h]

theorem eventsOf_own {e : Event n} (he : eventTid e = some t) (tr : List (Event n)) :
    eventsOf t (tr ++ [e]) = eventsOf t tr ++ [e] := by
  rw [eventsOf_snoc, if_pos he]

theorem eventsOf_other {e : Event n} (he : eventTid e ≠ some t) (tr : List (Event n)) :
    eventsOf t (tr ++ [e]) = eventsOf t tr := by
  rw [eventsOf_snoc, if_neg he, List.append_nil]

theorem goes_other {p q : Pc} {d d' : Shared n} (h : (code handle t p).Goes d q d') (hu : u ≠ t) :
    eventsOf u d'.trace = eventsOf u d.trace := by
  have other {e : Event n} (he : eventTid e = some t) (tr : List (Event n)) :
      eventsOf u (tr ++ [e]) = eventsOf u tr :=
    eventsOf_other (fun h => hu (Option.some.inj (h.symm.trans he))) tr
  cases goes_edge h with
  | enqueued r => exact @eventsOf_other _ u (.enqueued r) nofun _
  | dequeued | returned | closed | finished => exact other rfl _
  | _ => rfl

theorem goes_served {p q : Pc} {d d' : Shared n} (h : (code handle t p).Goes d q d')
    (hs : Served t d.trace p) : Served t d'.trace q := by
  cases goes_edge h with
  | enqueued r => exact (@eventsOf_other _ t (.enqueued r) nofun _).trans hs
  | dequeued stats req =>
      obtain ⟨rs, tail, he, rfl⟩ := hs
      exact ⟨rs, [.dequeued t req], by rw [eventsOf_own rfl, he, List.append_nil], rfl⟩
  | returned stats stats' req dispatch =>
      obtain ⟨rs, tail, he, rfl⟩ := hs
      exact ⟨rs, _, by rw [eventsOf_own rfl, he, List.append_assoc]; rfl, rfl⟩
  | closed stats req =>
      obtain ⟨rs, tail, he, rfl⟩ := hs
      exact ⟨rs, _, by rw [eventsOf_own rfl, he, List.append_assoc]; rfl, req, rfl⟩
  | finished stats =>
      obtain ⟨rs, tail, he, r, rfl⟩ := hs
      refine ⟨rs ++ [r], [], ?_, rfl⟩
      rw [eventsOf_own rfl, he]
      simp [cycle]
  | _ => exact hs

theorem served (h : Reachable (machine n handle) (start n junk cap) σ) (t : Tid n) :
    Served t σ.data.trace (σ.place t) := by
  refine h.place_invariant (I := fun f d => ∀ t, Served t d.trace (f t)) ?_ ?_ t
  · intro t
    cases t with
    | main => rfl
    | worker i => exact ⟨[], [], rfl, rfl⟩
  · intro f d t q d' hi hg u
    by_cases hu : u = t
    · subst u
      rw [Function.update_self]
      exact goes_served hg (hi t)
    · rw [Function.update_of_ne hu]
      have hsame := goes_other hg hu
      have hserved := hi u
      cases hp : f u with
      | main p => rw [hp] at hserved; exact hsame.trans hserved
      | worker stats p =>
          rw [hp] at hserved
          obtain ⟨rs, tail, he, ht⟩ := hserved
          exact ⟨rs, tail, hsame.trans he, ht⟩

def excess (d : Shared n) : Int :=
  d.queue.dequeueingSize - (enqueued d.trace).length + (dequeued d.trace).length

theorem goes_pending {p q : Pc} {d d' : Shared n} (h : (code handle t p).Goes d q d') :
    excess d' = excess d := by
  cases goes_edge h with
  | enqueued | returned | closed | finished =>
      simp [excess, QueueRefinement.enqueued, QueueRefinement.dequeued]
  | dequeued =>
      simp [excess, QueueRefinement.enqueued, QueueRefinement.dequeued]
      omega
  | _ => rfl

theorem pending_eq (hcap : 1 ≤ cap) (h : Reachable (machine n handle) (start n junk cap) σ) :
    ∃ pending : List Request, enqueued σ.data.trace = dequeued σ.data.trace ++ pending ∧
      σ.data.queue.dequeueingSize = pending.length := by
  have hcount : excess σ.data = 0 := by
    refine h.place_invariant (I := fun _ d => excess d = 0) rfl fun f d t q d' hi hg => ?_
    rw [goes_pending hg]
    exact hi
  obtain ⟨q, hq⟩ := after_reachable hcap h
  have he := enqueued_eq hq
  refine ⟨q.pending, he, ?_⟩
  rw [excess, he, List.length_append] at hcount
  push_cast at hcount
  omega

def handOut (n : Nat) : Nat := 6 * Fintype.card (Tid n)

/-- What a pending request stands for: the turn of the worker that will take it. -/
def perRequest (n : Nat) : Nat := handOut n + 14

def workerEnergy (n : Nat) : WorkerPc → Nat
  | .dequeue s => match s with
    | .wait => 1
    | .decrement _ => 2
    | .front _ => 3
    | .read => 4
    | .check => 5
    | .lock => 6
    | .unlock _ _ => handOut n + 14
    | .time _ => handOut n + 15
  | .finish s => match s with
    | .unlock => 7
    | .signal => handOut n + 8
    | .size => handOut n + 9
    | .lock => handOut n + 10
  | .close _ => handOut n + 11
  | .handle _ _ => handOut n + 12
  | .timersub _ _ => handOut n + 13

def mainEnergy (n : Nat) : MainPc → Nat
  | .accept => 0
  | .enqueue _ s => match s with
    | .unlock => 1
    | .signal => handOut n + 2
    | .dequeueingSize => handOut n + perRequest n + 3
    | .size => handOut n + perRequest n + 4
    | .rear => handOut n + perRequest n + 5
    | .arrival => handOut n + perRequest n + 6
    | .connfd => handOut n + perRequest n + 7
    | .wait => handOut n + perRequest n + 8
    | .check => handOut n + perRequest n + 9
    | .lock => handOut n + perRequest n + 10
  | .stamp _ => handOut n + perRequest n + 11
  | .unlock _ => handOut n + perRequest n + 12
  | .wait _ => handOut n + perRequest n + 13
  | .check _ => handOut n + perRequest n + 14
  | .lock _ => handOut n + perRequest n + 15

def pcEnergy (n : Nat) : Pc → Nat
  | .main p => mainEnergy n p
  | .worker _ p => workerEnergy n p

def pendingEnergy (d : Shared n) : Int := perRequest n * d.queue.dequeueingSize

def accepting : Pc → Bool
  | .main .accept => true
  | _ => false

def Survives (handle : Handler Script) : Prop :=
  ∀ connfd arrival dispatch stats s, handle connfd arrival dispatch stats s ≠ some .exited

theorem works_moves (hs : Survives handle) {p q : Pc} {d d' : Shared n}
    (h : ((code handle t p).restrict Choice.works).Goes d q d') : q ≠ p := by
  cases goes_edge (goes_restrict h) with
  | acceptFailed | closeFailed =>
      obtain ⟨e, h⟩ := h
      obtain ⟨hworks, h⟩ := Option.ite_none_right_eq_some.1 h
      cases e with
      | failed => cases hworks
      | _ => simp at h
  | exited stats req dispatch exit =>
      obtain ⟨s, hexit⟩ := exit
      exact absurd hexit (hs _ _ _ _ _)
  | _ => nofun

theorem edge_spends {p q : Pc} {d d' : Shared n} (h : Edge handle t d p q d') (hne : q ≠ p)
    (hp : accepting p = false) (hw : ∀ c r, code handle t p ≠ .wait c r)
    (hsig : ∀ c r, code handle t p ≠ .signal c r) :
    pendingEnergy d' + pcEnergy n q < pendingEnergy d + pcEnergy n p := by
  cases h with
  | accepted => cases hp
  | acceptFailed | exited | closeFailed => exact absurd rfl hne
  | waitWoken | enqueueWoken | dequeueWoken => exact absurd rfl (hw _ _)
  | enqueueSignalled | finishSignalled => exact absurd rfl (hsig _ _)
  | enqueued =>
      simp only [pendingEnergy, pcEnergy, mainEnergy, mul_add]
      push_cast
      linarith
  | dequeued =>
      simp only [pendingEnergy, pcEnergy, workerEnergy, perRequest, mul_sub]
      push_cast
      linarith
  | _ => simp [pendingEnergy, pcEnergy, mainEnergy, workerEnergy]

theorem act_spends (hs : Survives handle) {p : Pc} (hp : accepting p = false)
    {f : Shared n → Choice Script → Option (Shared n × Pc)} (hi : code handle t p = .act f) :
    ((code handle t p).restrict Choice.works).Spends (pcEnergy n) 6 (Fintype.card (Tid n))
      pendingEnergy p := by
  have hspends (d d' : Shared n) (q : Pc) (h : ((code handle t p).restrict Choice.works).Goes d q d') :
      pendingEnergy d' + pcEnergy n q < pendingEnergy d + pcEnergy n p :=
    edge_spends (goes_edge (goes_restrict h)) (works_moves hs h) hp (by simp [hi]) (by simp [hi])
  rw [hi] at hspends ⊢
  intro d e d' q hf
  exact hspends d d' q ⟨e, hf⟩

theorem code_spends (hs : Survives handle) (t : Tid n) {p : Pc} (hp : accepting p = false) :
    ((code handle t p).restrict Choice.works).Spends (pcEnergy n) 6 (Fintype.card (Tid n))
      pendingEnergy p := by
  cases p with
  | main p =>
      cases p with
      | accept => cases hp
      | check | stamp => exact act_spends hs hp rfl
      | lock | wait | unlock =>
          simp [code, mainLoop, Instr.restrict, Instr.Spends, pcEnergy, mainEnergy]
      | enqueue r s =>
          cases s with
          | lock | wait | unlock =>
              simp [code, mainLoop, enqueue, Instr.restrict, Instr.Spends, pcEnergy, mainEnergy]
          | signal =>
              simp only [code, mainLoop, enqueue, Instr.restrict, Instr.Spends, pcEnergy, mainEnergy,
                handOut]
              omega
          | _ => exact act_spends hs hp rfl
  | worker stats p =>
      cases p with
      | dequeue s =>
          cases s with
          | lock | wait | unlock =>
              simp [code, workerThread, dequeue, Instr.restrict, Instr.Spends, pcEnergy, workerEnergy]
          | _ => exact act_spends hs hp rfl
      | finish s =>
          cases s with
          | lock | unlock =>
              simp [code, workerThread, finishHandling, Instr.restrict, Instr.Spends, pcEnergy,
                workerEnergy]
          | signal =>
              simp only [code, workerThread, finishHandling, Instr.restrict, Instr.Spends, pcEnergy,
                workerEnergy, handOut]
              omega
          | size => exact act_spends hs hp rfl
      | _ => exact act_spends hs hp rfl

theorem potential (hs : Survives handle) : Potential ((machine n handle).restrict Choice.works)
    accepting (pcEnergy n) 6 (handOut n + perRequest n + 15) pendingEnergy where
  spends t p hp := code_spends hs t hp
  supplies t p hp := by
    unfold accepting at hp
    split at hp
    · refine ⟨_, rfl, fun d e d' q hf => ?_⟩
      have hgoes := @goes_restrict _ _ _ _ Choice.works (mainLoop .accept : QueueInstr n Script)
        _ _ _ ⟨e, hf⟩
      rcases goes_accept hgoes with ⟨rfl, c, rfl⟩ | ⟨rfl, rfl⟩
      · simp [pcEnergy, mainEnergy]
      · simp only [pendingEnergy, pcEnergy]
        linarith [Int.natCast_nonneg (handOut n + perRequest n + 15)]
    · cases hp

theorem energy_nonneg (hcap : 1 ≤ cap) (h : Reachable (machine n handle) (start n junk cap) σ) :
    0 ≤ energy (pcEnergy n) 6 pendingEnergy σ := by
  obtain ⟨pending, -, hd⟩ := pending_eq hcap h
  apply add_nonneg
  · rw [pendingEnergy, hd]
    exact_mod_cast Nat.zero_le _
  · exact Finset.sum_nonneg fun t _ => by exact_mod_cast Nat.zero_le _

theorem bounded_work (hcap : 1 ≤ cap) (hs : Survives handle)
    (h : Reachable ((machine n handle).restrict Choice.works) (start n junk cap) σ) {k s : Nat}
    (hr : Runs ((machine n handle).restrict Choice.works) accepting σ k s τ) :
    k ≤ (energy (pcEnergy n) 6 pendingEnergy σ).toNat + (handOut n + perRequest n + 15) * s := by
  have hnew : ∀ σ', Reachable ((machine n handle).restrict Choice.works) σ σ' → ∀ t q,
      σ'.phase t = .woken q → accepting q = false := by
    intro σ' hσ' t q hq
    rcases waiter_place (restrict_reachable (h.trans hσ')) (.inr hq) with
      ⟨k, rfl⟩ | ⟨r, rfl⟩ | ⟨stats, rfl⟩ <;> rfl
  have hbound := (potential hs).bound (by omega) hnew hr
  have hpos := energy_nonneg hcap (restrict_reachable (h.trans hr.reachable))
  zify
  have hle := Int.self_le_toNat (energy (pcEnergy n) 6 pendingEnergy σ)
  push_cast at hbound
  linarith

/-- The main thread waits for a connection, the workers for a request, and each
request that was enqueued has had one complete turn of a worker. -/
structure Idle (σ : QueueState n) : Prop where
  main : σ.place .main = .main .accept
  workers : ∀ i, Sleeps σ .notEmpty (.worker i)
  handled : ∃ turns : Fin n → List Request,
    (∀ i, eventsOf (.worker i) σ.data.trace = (turns i).flatMap (cycle (.worker i))) ∧
    ∀ r, (enqueued σ.data.trace).count r = ∑ i, (turns i).count r

theorem count_dequeued (tr : List (Event n)) (r : Request) :
    (dequeued tr).count r = ∑ t, tr.count (.dequeued t r) := by
  induction tr with
  | nil => simp [dequeued]
  | cons e tr ih =>
      cases e with
      | dequeued u r' =>
          have hcons : dequeued (.dequeued u r' :: tr) = r' :: dequeued tr := rfl
          simp only [hcons, List.count_cons, Finset.sum_add_distrib, ih, beq_iff_eq,
            Event.dequeued.injEq]
          by_cases hr : r' = r <;> simp [hr]
      | enqueued r' | returned u r' | closed u r' | finished u =>
          simp only [List.count_cons, Finset.sum_add_distrib, ← ih]
          simp [dequeued]

theorem count_eventsOf (t : Tid n) (tr : List (Event n)) (r : Request) :
    (eventsOf t tr).count (.dequeued t r) = tr.count (.dequeued t r) :=
  List.count_filter (by simp [eventTid])

theorem count_cycle (t : Tid n) (rs : List Request) (r : Request) :
    (rs.flatMap (cycle t)).count (.dequeued t r) = rs.count r := by
  induction rs with
  | nil => rfl
  | cons r' rs ih =>
      rw [List.flatMap_cons, List.count_append, ih, List.count_cons, add_comm]
      congr 1
      simp [cycle, List.count_cons]

theorem turns_over (h : Reachable (machine n handle) (start n junk cap) σ) {i : Fin n}
    (hs : Sleeps σ .notEmpty (.worker i)) :
    ∃ rs : List Request, eventsOf (.worker i) σ.data.trace = rs.flatMap (cycle (.worker i)) := by
  have hserved := served h (.worker i)
  rcases sleeper_place h hs with ⟨hc, -⟩ | ⟨-, stats, hp⟩
  · cases hc
  · have hpl : σ.place (.worker i) = .worker stats (.dequeue .check) := by rw [State.place, hp]; rfl
    rw [hpl] at hserved
    obtain ⟨rs, tail, he, ht⟩ := hserved
    obtain rfl : tail = [] := ht
    exact ⟨rs, he.trans (List.append_nil _)⟩

theorem idle_handled (h : Reachable (machine n handle) (start n junk cap) σ)
    (hw : ∀ i, Sleeps σ .notEmpty (.worker i)) : ∃ turns : Fin n → List Request,
    (∀ i, eventsOf (.worker i) σ.data.trace = (turns i).flatMap (cycle (.worker i))) ∧
    ∀ r, (dequeued σ.data.trace).count r = ∑ i, (turns i).count r := by
  choose turns hturns using fun i => turns_over h (hw i)
  refine ⟨turns, hturns, fun r => ?_⟩
  have hmain : eventsOf .main σ.data.trace = [] := by
    have hserved := served h (.main : Tid n)
    have hrole := (role h (.main : Tid n)).2 rfl
    cases hp : σ.place .main with
    | main p => rwa [hp] at hserved
    | worker stats p => rw [hp] at hrole; cases hrole
  have hunion : (Finset.univ : Finset (Tid n)) =
      insert .main (Finset.univ.map ⟨Tid.worker, fun i j h => Tid.worker.inj h⟩) := by
    ext t
    cases t with
    | main => simp
    | worker i =>
        have hi := Finset.mem_map_of_mem ⟨Tid.worker, fun i j h => Tid.worker.inj h⟩ (Finset.mem_univ i)
        exact iff_of_true (Finset.mem_univ _) (Finset.mem_insert_of_mem hi)
  rw [count_dequeued, hunion, Finset.sum_insert (by simp), ← count_eventsOf, hmain, Finset.sum_map,
    List.count_nil, zero_add]
  apply Finset.sum_congr rfl
  intro i _
  rw [← count_cycle (.worker i), ← hturns, count_eventsOf]
  rfl

theorem proceeds_or_idle (hcap : 1 ≤ cap) (hn : 1 ≤ n) (hret : Returns handle)
    (h : Reachable (machine n handle) (start n junk cap) σ) : Proceeds handle σ ∨ Idle σ := by
  by_cases hmoves : Proceeds handle σ
  · exact .inl hmoves
  right
  have free : σ.owner = none := by
    cases ho : σ.owner with
    | none => rfl
    | some t => exact absurd (moves_of_owner h hret ho) hmoves
  have hw : ∀ i, Sleeps σ .notEmpty (.worker i) := fun i =>
    (worker_moves h hret free i).resolve_left hmoves
  have hpend : ¬0 < σ.data.queue.dequeueingSize := fun hd =>
    hmoves (moves_of_pending hcap hn h hret free hd)
  have hmain : σ.place .main = .main .accept := by
    cases hφ : σ.phase (.main : Tid n) with
    | run p =>
        by_contra hne
        rw [place_of_run hφ] at hne
        exact hmoves (moves_of_run hret hφ hne (.inr free))
    | woken q => exact absurd (moves_of_woken h free hφ) hmoves
    | asleep c q =>
        refine absurd (moves_of_waiting hcap hn h hret free ?_) hmoves
        rcases sleeper_place h ⟨q, hφ⟩ with ⟨-, -, ⟨k, hp⟩ | ⟨r, hp⟩⟩ | ⟨-, stats, hp⟩
        · rw [hp]; rfl
        · rw [hp]; rfl
        · have hrole := (role h (.main : Tid n)).2 rfl
          rw [State.place, hp] at hrole
          cases hrole
  obtain ⟨turns, hturns, hcount⟩ := idle_handled h hw
  obtain ⟨pending, he, hd⟩ := pending_eq hcap h
  have hnil : pending = [] := List.eq_nil_of_length_eq_zero (by omega)
  rw [hnil, List.append_nil] at he
  exact ⟨hmain, hw, turns, hturns, fun r => by rw [he, hcount]⟩

end WebServer.QueueDrain
