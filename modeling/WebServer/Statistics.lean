import Mathlib.Algebra.BigOperators.Group.Finset.Basic
import WebServer.ConnectionErrors
import WebServer.Histories
import WebServer.LogEntries
import WebServer.LogHistory

namespace WebServer.Statistics

open Monitor RequestQueue QueueRefinement QueueDrain ConnectionErrors
open Message Process Segel RequestHandle Answers Framing LogEntries
open LogHistory (snoc_split)

inductive Kind
  | static
  | dynamic
  | post
  | error
  deriving DecidableEq

def kind : Reply → Kind
  | .file _ _ => .static
  | .program _ _ => .dynamic
  | .log => .post
  | .error _ _ _ _ | .emptyFile _ => .error

def reply (e : Exchange) : Option Reply := replyTo e.buf e.old e.before

def requests (es : List Exchange) : Nat := es.countP fun e => (reply e).isSome

def number (k : Kind) (es : List Exchange) : Nat :=
  es.countP fun e => decide ((reply e).map kind = some k)

/-- The counters are those of the requests in `es`. -/
structure Counts (stats : ThreadsStats) (es : List Exchange) : Prop where
  total : stats.totalReq = requests es
  static : stats.statReq = number .static es
  dynamic : stats.dynmReq = number .dynamic es
  post : stats.postReq = number .post es
  errors : stats.totalReq = stats.statReq + stats.dynmReq + stats.postReq + number .error es

theorem requests_snoc (es : List Exchange) (e : Exchange) :
    requests (es ++ [e]) = requests es + if (reply e).isSome then 1 else 0 := by
  rw [requests, List.countP_append, List.countP_singleton, requests]

theorem number_snoc (k : Kind) (es : List Exchange) (e : Exchange) :
    number k (es ++ [e]) = number k es + if (reply e).map kind = some k then 1 else 0 := by
  rw [number, List.countP_append, List.countP_singleton, number]
  simp

theorem Counts.next {es : List Exchange} {e : Exchange} (h : Counts e.stats es) (he : e.Runs) :
    Counts e.counters (es ++ [e]) := by
  obtain ⟨ht, hs, hd, hp, he'⟩ := h
  rcases requestHandle_returned he with ⟨hnone, heq, -⟩ | ⟨r, hsome, heq, -⟩
  · have hreply : reply e = none := hnone
    constructor <;> simp [requests_snoc, number_snoc, hreply, heq, ht, hs, hd, hp]
    omega
  · have hreply : reply e = some r := hsome
    cases r <;> constructor <;>
      simp [requests_snoc, number_snoc, hreply, heq, kind, Reply.count, ht, hs, hd, hp] <;> omega

abbrev Asked (n : Nat) := Answer (Tid n) Pc (Choice (Nat × {_c : Connection // True}))

def handledBy {n : Nat} (a : Asked n) : Option (Fin n × Exchange) :=
  match a.place, a.env, a.tid with
  | .worker stats (.handle req dispatch), .script (fuel, c), .worker i =>
      match requestHandle fuel c.1.buf c.1.old req.arrivalTime dispatch stats c.1.world with
      | .returned counters after =>
          some (i, ⟨fuel, c.1.buf, c.1.old, req.arrivalTime, dispatch, stats, c.1.world, counters, after⟩)
      | _ => none
  | _, _, _ => none

def acceptedBy {n : Nat} (a : Asked n) : Option Int :=
  match a.place, a.env with
  | .main .accept, .accepted c => some c
  | _, _ => none

variable {n cap : Nat} {junk : Nat → Request} {σ : QueueState n} {as : List (Asked n)} {t : Tid n}
  {i : Fin n} {p q : Pc} {d d' : Shared n} {Script : Type}

def handled (as : List (Asked n)) : List (Fin n × Exchange) := as.filterMap handledBy

def accepted (as : List (Asked n)) : List Int := as.filterMap acceptedBy

def own (i : Fin n) (x : Fin n × Exchange) : Option Exchange := if x.1 = i then some x.2 else none

def exchanges (i : Fin n) (as : List (Asked n)) : List Exchange := (handled as).filterMap (own i)

theorem exchanges_snoc (i : Fin n) (as : List (Asked n)) (a : Asked n) :
    exchanges i (as ++ [a]) = exchanges i as ++ ((handledBy a).bind (own i)).toList := by
  rw [exchanges, handled, List.filterMap_append, List.filterMap_append, exchanges, handled]
  congr 1
  cases h : handledBy a with
  | none => simp [h]
  | some x => cases hx : own i x <;> simp [h, hx]

def counters : Pc → Option ThreadsStats
  | .main _ => none
  | .worker stats _ => some stats

inductive Recorded (t : Tid n) (p q : Pc) (a : Asked n) : Prop
  | exited (other : handledBy a = none) (stays : q = p)
  | returned (i : Fin n) (ex : Exchange) (req : Request) (worker : t = .worker i)
      (call : handledBy a = some (i, ex)) (runs : ex.Runs) (before : counters p = some ex.stats)
      (after : q = .worker ex.counters (.close req))

theorem handle_recorded {stats : ThreadsStats} {req : Request} {dispatch : Timeval} {g} {e}
    (hi : code (handler fun _ => True) (.worker i) (.worker stats (.handle req dispatch)) = .act g)
    (hf : g d e = some (d', q)) : Recorded (.worker i) (.worker stats (.handle req dispatch)) q
      ⟨.worker i, .worker stats (.handle req dispatch), e⟩ := by
  obtain rfl := Instr.act.inj hi
  cases e with
  | script s =>
      obtain ⟨fuel, c, hc⟩ := s
      obtain ⟨o, ho, hf⟩ := Option.map_eq_some_iff.1 hf
      have hrun : outcome (requestHandle fuel c.buf c.old req.arrivalTime dispatch stats c.world) =
          some o := ho
      generalize hr : requestHandle fuel c.buf c.old req.arrivalTime dispatch stats c.world = r at hrun
      cases r with
      | returned stats' w =>
          obtain rfl := Option.some.inj hrun
          obtain ⟨-, rfl⟩ := Prod.mk.inj hf
          exact .returned i ⟨fuel, c.buf, c.old, req.arrivalTime, dispatch, stats, c.world, stats', w⟩
            req rfl (by simp [handledBy, hr]) hr rfl rfl
      | exited w =>
          obtain rfl := Option.some.inj hrun
          obtain ⟨-, rfl⟩ := Prod.mk.inj hf
          exact .exited (by simp [handledBy, hr]) rfl
      | unfinished => cases hrun
  | _ => cases hf

theorem edge_counters {handle : Handler Script} (h : Edge handle t d p q d') :
    (∃ stats req dispatch, p = .worker stats (.handle req dispatch)) ∨
      (∀ e, handledBy ⟨t, p, e⟩ = none) ∧ counters q = counters p := by
  cases h with
  | returned stats stats' req dispatch | exited stats req dispatch =>
      exact .inl ⟨stats, req, dispatch, rfl⟩
  | _ => exact .inr ⟨fun _ => rfl, rfl⟩

structure Kept (as : List (Asked n)) (f : Tid n → Pc) : Prop where
  main : counters (f .main) = none
  workers : ∀ i, ∃ stats, counters (f (.worker i)) = some stats
  counts : ∀ i stats, counters (f (.worker i)) = some stats → Counts stats (exchanges i as)
  each : ∀ i es e es', exchanges i as = es ++ e :: es' → e.Runs ∧ Counts e.stats es

variable {f : Tid n → Pc}

theorem Kept.move (h : Kept as f) (hq : counters q = counters (f t)) :
    Kept as (Function.update f t q) := by
  have hsame (u : Tid n) : counters (Function.update f t q u) = counters (f u) := by
    by_cases hu : u = t
    · subst u
      rw [Function.update_self, hq]
    · rw [Function.update_of_ne hu]
  exact ⟨(hsame _).trans h.main, fun i => by rw [hsame]; exact h.workers i, fun i stats hs => h.counts i stats ((hsame _).symm.trans hs), h.each⟩

theorem exchanges_other {a : Asked n} (ha : handledBy a = none) (i : Fin n) :
    exchanges i (as ++ [a]) = exchanges i as := by
  rw [exchanges_snoc, ha]
  exact List.append_nil _

theorem Kept.other (h : Kept as f) {a : Asked n} (ha : handledBy a = none) : Kept (as ++ [a]) f :=
  ⟨h.main, h.workers, fun i => by rw [exchanges_other ha]; exact h.counts i,
    fun i => by rw [exchanges_other ha]; exact h.each i⟩

theorem Kept.handle (h : Kept as f) {a : Asked n} (hr : Recorded t (f t) q a) :
    Kept (as ++ [a]) (Function.update f t q) := by
  cases hr with
  | exited other stays => exact (h.move (congrArg counters stays)).other other
  | returned j ex req worker call runs before after =>
      subst worker
      have hcounts := h.counts j ex.stats before
      have hown : exchanges j (as ++ [a]) = exchanges j as ++ [ex] := by
        simp [exchanges_snoc, call, own]
      have hother {i : Fin n} (hi : i ≠ j) : exchanges i (as ++ [a]) = exchanges i as := by
        simp [exchanges_snoc, call, own, hi.symm]
      refine ⟨by rw [Function.update_of_ne (by simp)]; exact h.main, fun i => ?_, fun i stats hs => ?_,
        fun i es e es' he => ?_⟩
      · by_cases hi : i = j
        · subst i
          rw [Function.update_self, after]
          exact ⟨_, rfl⟩
        · rw [Function.update_of_ne (by simpa using hi)]
          exact h.workers i
      · by_cases hi : i = j
        · subst i
          rw [Function.update_self, after] at hs
          obtain rfl := Option.some.inj hs
          rw [hown]
          exact hcounts.next runs
        · rw [hother hi]
          rw [Function.update_of_ne (by simpa using hi)] at hs
          exact h.counts i stats hs
      · by_cases hi : i = j
        · subst i
          rw [hown] at he
          rcases snoc_split he with ⟨es'', -, he⟩ | ⟨rfl, rfl⟩
          · exact h.each j es e es'' he
          · exact ⟨runs, hcounts⟩
        · rw [hother hi] at he
          exact h.each i es e es' he

theorem start_kept : Kept [] (start n junk cap).place where
  main := rfl
  workers i := ⟨_, rfl⟩
  counts i stats hs := by
    obtain rfl := Option.some.inj hs
    exact ⟨rfl, rfl, rfl, rfl, rfl⟩
  each i es e es' he := by simp [exchanges, handled] at he

theorem Kept.recorded (hk : Kept as f) {g} {e} {stats : ThreadsStats} {req : Request}
    {dispatch : Timeval} (hi : code (handler fun _ => True) t (f t) = .act g)
    (hf : g d e = some (d', q)) (hp : f t = .worker stats (.handle req dispatch)) :
    Recorded t (f t) q ⟨t, f t, e⟩ := by
  cases t with
  | main => exact absurd (hk.main.symm.trans (congrArg counters hp)) nofun
  | worker i =>
      rw [hp] at hi ⊢
      exact handle_recorded hi hf

theorem goes_act {handle : Handler Script} {g} {e} (hi : code handle t p = .act g)
    (hf : g d e = some (d', q)) : Edge handle t d p q d' := by
  apply goes_edge
  rw [hi]
  exact ⟨e, hf⟩

theorem Kept.act (hk : Kept as f) {g} {e} (hi : code (handler fun _ => True) t (f t) = .act g)
    (hf : g d e = some (d', q)) : Kept (as ++ [⟨t, f t, e⟩]) (Function.update f t q) := by
  rcases edge_counters (goes_act hi hf) with ⟨stats, req, dispatch, hp⟩ | ⟨hother, hq⟩
  · exact hk.handle (hk.recorded hi hf hp)
  · exact (hk.move hq).other (hother e)

theorem Kept.sync (hk : Kept as f) (hi : ∀ g, code (handler fun _ => True) t (f t) ≠ .act g)
    (hg : (code (handler fun _ => True) t (f t)).Goes d q d') : Kept as (Function.update f t q) := by
  rcases edge_counters (goes_edge hg) with ⟨stats, req, dispatch, hp⟩ | ⟨-, hq⟩
  · exact absurd (congrArg (code (handler fun _ => True) t) hp) (hi _)
  · exact hk.move hq

theorem kept (h : Run (machine n (handler fun _ => True)) (start n junk cap) as σ) :
    Kept as σ.place :=
  h.invariant (I := fun as f _ => Kept as f) start_kept (fun _ _ _ _ _ _ _ _ hk hi hf => hk.act hi hf)
    fun _ _ _ _ _ hk hi hg => hk.sync hi hg

def holding : Pc → Bool
  | .main (.lock _) | .main (.check _) | .main (.wait _) | .main (.unlock _) | .main (.stamp _) => true
  | .main (.enqueue _ s) => match s with
    | .signal | .unlock => false
    | _ => true
  | _ => false

def taken : Pc → Bool
  | .worker _ (.dequeue (.time _)) | .worker _ (.dequeue (.unlock _ _)) | .worker _ (.timersub _ _)
  | .worker _ (.handle _ _) => true
  | _ => false

/-- Where each connection is that has been accepted. -/
structure Tally (as : List (Asked n)) (f : Tid n → Pc) (d : Shared n) : Prop where
  arrived : ((accepted as).length : Int) = (enqueued d.trace).length + countIn holding f
  served : ((dequeued d.trace).length : Int) = (handled as).length + countIn taken f

def one (b : Bool) : Int := if b then 1 else 0

theorem edge_tally {handle : Handler Script} (h : Edge handle t d p q d') :
    (p = .main .accept ∨ ∃ stats req dispatch, p = .worker stats (.handle req dispatch)) ∨
      (∀ e, acceptedBy ⟨t, p, e⟩ = none ∧ handledBy ⟨t, p, e⟩ = none) ∧
      ((enqueued d'.trace).length : Int) + one (holding q) = (enqueued d.trace).length + one (holding p) ∧
      ((dequeued d'.trace).length : Int) - one (taken q) = (dequeued d.trace).length - one (taken p) := by
  cases h with
  | accepted | acceptFailed => exact .inl (.inl rfl)
  | returned stats stats' req dispatch | exited stats req dispatch =>
      exact .inl (.inr ⟨stats, req, dispatch, rfl⟩)
  | enqueued | dequeued | closed | finished =>
      exact .inr ⟨fun _ => ⟨rfl, rfl⟩, by simp [QueueRefinement.enqueued, holding, one],
        by simp [QueueRefinement.dequeued, taken, one]⟩
  | _ => exact .inr ⟨fun _ => ⟨rfl, rfl⟩, rfl, rfl⟩

theorem accept_cases {handle : Handler (Nat × {_c : Connection // True})} {g} {e}
    (hi : code handle t (.main .accept) = .act g) (hf : g d e = some (d', q)) :
    d'.trace = d.trace ∧
      ((∃ c, acceptedBy ⟨t, .main .accept, e⟩ = some c ∧ q = .main (.lock c)) ∨
        acceptedBy ⟨t, .main .accept, e⟩ = none ∧ q = .main .accept) := by
  obtain rfl := Instr.act.inj hi
  cases e with
  | accepted c =>
      obtain ⟨rfl, rfl⟩ := Prod.mk.inj (Option.some.inj hf)
      exact ⟨rfl, .inl ⟨c, rfl, rfl⟩⟩
  | failed =>
      obtain ⟨rfl, rfl⟩ := Prod.mk.inj (Option.some.inj hf)
      exact ⟨rfl, .inr ⟨rfl, rfl⟩⟩
  | _ => cases hf

theorem accepted_snoc (as : List (Asked n)) (a : Asked n) :
    (accepted (as ++ [a])).length = (accepted as).length + (acceptedBy a).toList.length := by
  rw [accepted, List.filterMap_append, List.length_append, accepted]
  cases h : acceptedBy a <;> simp [h]

theorem handled_snoc (as : List (Asked n)) (a : Asked n) :
    (handled (as ++ [a])).length = (handled as).length + (handledBy a).toList.length := by
  rw [handled, List.filterMap_append, List.length_append, handled]
  cases h : handledBy a <;> simp [h]

theorem Tally.step (h : Tally as f d) {as' : List (Asked n)} {x y : Nat}
    (ha : (accepted as').length = (accepted as).length + x)
    (hh : (handled as').length = (handled as).length + y)
    (he : ((enqueued d'.trace).length : Int) + one (holding q) =
      (enqueued d.trace).length + one (holding (f t)) + x)
    (hd : ((dequeued d'.trace).length : Int) - one (taken q) =
      (dequeued d.trace).length - one (taken (f t)) + y) :
    Tally as' (Function.update f t q) d' := by
  have harrived := h.arrived
  have hserved := h.served
  simp only [one] at he hd
  constructor
  · rw [countIn_update, ha]
    push_cast
    linarith
  · rw [countIn_update, hh]
    push_cast
    linarith

theorem edge_handle {handle : Handler Script} {stats : ThreadsStats} {req : Request}
    {dispatch : Timeval} (h : Edge handle t d (.worker stats (.handle req dispatch)) q d') :
    enqueued d'.trace = enqueued d.trace ∧ dequeued d'.trace = dequeued d.trace ∧
      holding q = false := by
  cases h with
  | returned => exact ⟨by simp [QueueRefinement.enqueued], by simp [QueueRefinement.dequeued], rfl⟩
  | exited => exact ⟨rfl, rfl, rfl⟩

theorem Tally.act (h : Tally as f d) (hk : Kept as f) {g} {e}
    (hi : code (handler fun _ => True) t (f t) = .act g) (hf : g d e = some (d', q)) :
    Tally (as ++ [⟨t, f t, e⟩]) (Function.update f t q) d' := by
  have hedge := goes_act hi hf
  rcases edge_tally hedge with (hp | ⟨stats, req, dispatch, hp⟩) | ⟨hother, he, hd⟩
  · rw [hp] at hi
    have hnone : handledBy ⟨t, .main .accept, e⟩ = none := rfl
    obtain ⟨htr, ⟨c, hacc, rfl⟩ | ⟨hacc, rfl⟩⟩ := accept_cases hi hf <;>
      apply h.step (accepted_snoc _ _) (handled_snoc _ _) <;>
      simp [hnone, hp, hacc, htr, one, holding, taken]
  · have hr := hk.recorded hi hf hp
    have hnone : acceptedBy ⟨t, f t, e⟩ = none := by rw [hp]; rfl
    rw [hp] at hedge
    obtain ⟨he, hd, hq⟩ := edge_handle hedge
    have hpt : holding (f t) = false ∧ taken (f t) = true := by rw [hp]; exact ⟨rfl, rfl⟩
    apply h.step (accepted_snoc _ _) (handled_snoc _ _)
    · simp [hnone, he, hq, hpt.1]
    · cases hr with
      | exited other stays => simp [other, stays, hd]
      | returned i ex req' worker call runs before after =>
          rw [after, hd, call, hpt.2]
          simp [one, taken]
  · apply h.step (accepted_snoc _ _) (handled_snoc _ _)
    · simpa [(hother e).1] using he
    · simpa [(hother e).2] using hd

theorem start_tally : Tally [] (start n junk cap).place (start n junk cap).data := by
  have hnone (R : Pc → Bool) (hR : ∀ t : Tid n, R (startPc t) = false) :
      countIn R (start n junk cap).place = 0 := countIn_eq_zero.2 hR
  constructor
  · rw [hnone holding fun t => by cases t <;> rfl]
    rfl
  · rw [hnone taken fun t => by cases t <;> rfl]
    rfl

theorem Tally.sync (h : Tally as f d) (hi : ∀ g, code (handler fun _ => True) t (f t) ≠ .act g)
    (hg : (code (handler fun _ => True) t (f t)).Goes d q d') :
    Tally as (Function.update f t q) d' := by
  rcases edge_tally (goes_edge hg) with (hp | ⟨stats, req, dispatch, hp⟩) | ⟨-, he, hd⟩
  · exact absurd (congrArg (code (handler fun _ => True) t) hp) (hi _)
  · exact absurd (congrArg (code (handler fun _ => True) t) hp) (hi _)
  · exact h.step (x := 0) (y := 0) rfl rfl (by simpa using he) (by simpa using hd)

theorem tally (h : Run (machine n (handler fun _ => True)) (start n junk cap) as σ) :
    Tally as σ.place σ.data :=
  (h.invariant (I := fun as f d => Kept as f ∧ Tally as f d) ⟨start_kept, start_tally⟩
    (fun _ _ _ _ _ _ _ _ ⟨hk, ht⟩ hi hf => ⟨hk.act hi hf, ht.act hk hi hf⟩)
    fun _ _ _ _ _ ⟨hk, ht⟩ hi hg => ⟨hk.sync hi hg, ht.sync hi hg⟩).2

theorem countP_own (P : Exchange → Bool) (xs : List (Fin n × Exchange)) :
    ∑ i, (xs.filterMap (own i)).countP P = (xs.map Prod.snd).countP P := by
  induction xs with
  | nil => simp
  | cons x xs ih =>
      have hcons (i : Fin n) : ((x :: xs).filterMap (own i)).countP P =
          (xs.filterMap (own i)).countP P + if x.1 = i then (if P x.2 then 1 else 0) else 0 := by
        by_cases hx : x.1 = i <;> simp [own, hx, List.countP_cons]
      simp only [hcons, Finset.sum_add_distrib, ih, Finset.sum_ite_eq, Finset.mem_univ, if_true,
        List.map_cons, List.countP_cons]

def statsOf (σ : QueueState n) (i : Fin n) : ThreadsStats :=
  (counters (σ.place (.worker i))).getD ⟨0, 0, 0, 0, 0⟩

def sum (σ : QueueState n) : ThreadsStats :=
  ⟨0, ∑ i, (statsOf σ i).statReq, ∑ i, (statsOf σ i).dynmReq, ∑ i, (statsOf σ i).postReq,
    ∑ i, (statsOf σ i).totalReq⟩

theorem Kept.statsOf (h : Kept as σ.place) (i : Fin n) : Counts (statsOf σ i) (exchanges i as) := by
  obtain ⟨stats, hs⟩ := h.workers i
  rw [Statistics.statsOf, hs]
  exact h.counts i stats hs

theorem sum_number (k : Kind) (as : List (Asked n)) :
    ∑ i, (number k (exchanges i as) : Int) = number k ((handled as).map Prod.snd) := by
  exact_mod_cast countP_own _ (handled as)

theorem Kept.sum (h : Kept as σ.place) : Counts (sum σ) ((handled as).map Prod.snd) where
  total := by
    have hsum : ∑ i, (requests (exchanges i as) : Int) = requests ((handled as).map Prod.snd) := by
      exact_mod_cast countP_own _ (handled as)
    rw [← hsum]
    simp only [Statistics.sum]
    exact Finset.sum_congr rfl fun i _ => (h.statsOf i).total
  static := by
    rw [← sum_number]
    simp only [Statistics.sum]
    exact Finset.sum_congr rfl fun i _ => (h.statsOf i).static
  dynamic := by
    rw [← sum_number]
    simp only [Statistics.sum]
    exact Finset.sum_congr rfl fun i _ => (h.statsOf i).dynamic
  post := by
    rw [← sum_number]
    simp only [Statistics.sum]
    exact Finset.sum_congr rfl fun i _ => (h.statsOf i).post
  errors := by
    rw [← sum_number]
    simp only [Statistics.sum, ← Finset.sum_add_distrib]
    exact Finset.sum_congr rfl fun i _ => (h.statsOf i).errors

/-- The main thread has no connection, none is pending, and no worker has a request. -/
structure Resting (σ : QueueState n) : Prop where
  main : holding (σ.place .main) = false
  pending : σ.data.queue.dequeueingSize = 0
  workers : ∀ i, taken (σ.place (.worker i)) = false

theorem holding_worker {stats : ThreadsStats} (h : counters p = some stats) : holding p = false := by
  cases p with
  | main => cases h
  | worker => rfl

theorem taken_main (h : counters p = none) : taken p = false := by
  cases p with
  | main => rfl
  | worker => cases h

/-- The counters are exact, in every response and after every request. -/
theorem counters_exact (hcap : 1 ≤ cap)
    (h : Run (machine n (handler fun _ => True)) (start n junk cap) as σ) :
    (∀ i, counters (σ.place (.worker i)) = some (statsOf σ i) ∧ Counts (statsOf σ i) (exchanges i as)) ∧
    (∀ i es e es', exchanges i as = es ++ e :: es' → e.Runs ∧ Counts e.counters (es ++ [e]) ∧
      ∀ r, reply e = some r → e.after.sent = e.before.sent ++ response (r.lines e.before.os) e.counters
        e.arrival e.dispatch (r.body e.before.os e.before.stdout)) ∧
    Counts (sum σ) ((handled as).map Prod.snd) ∧
    (Resting σ → (handled as).length = (accepted as).length) := by
  have hk := kept h
  refine ⟨fun i => ⟨?_, hk.statsOf i⟩, fun i es e es' he => ?_, hk.sum, fun hrest => ?_⟩
  · obtain ⟨stats, hs⟩ := hk.workers i
    rw [Statistics.statsOf, hs]
    rfl
  · obtain ⟨hruns, hcounts⟩ := hk.each i es e es' he
    refine ⟨hruns, hcounts.next hruns, fun r hr => ?_⟩
    rcases requestHandle_returned hruns with ⟨hnone, -⟩ | ⟨r', hsome, heq, ha⟩
    · exact absurd (hr.symm.trans hnone) nofun
    · obtain rfl := Option.some.inj (hr.symm.trans hsome)
      rw [heq]
      exact ha.sent
  · obtain ⟨pending, he, hd⟩ := pending_eq hcap h.reachable
    obtain rfl : pending = [] := List.eq_nil_of_length_eq_zero (by have := hrest.pending; omega)
    have hholding : countIn holding σ.place = 0 := countIn_eq_zero.2 fun t => by
      cases t with
      | main => exact hrest.main
      | worker i =>
          obtain ⟨stats, hs⟩ := hk.workers i
          exact holding_worker hs
    have htaken : countIn taken σ.place = 0 := countIn_eq_zero.2 fun t => by
      cases t with
      | main => exact taken_main hk.main
      | worker i => exact hrest.workers i
    have ht := tally h
    have harrived := ht.arrived
    have hserved := ht.served
    rw [hholding, he, List.append_nil] at harrived
    rw [htaken] at hserved
    omega

def serveOneFetch : List (Tid 2 × Choice (Nat × {_c : Connection // True})) :=
  serveOne ++ [(.worker 0, .ok), (.worker 0, .script (4, ⟨fetch, trivial⟩))]

theorem serveOneFetch_runs : ((machine 2 (handler fun _ => True)).replay serveOneFetch
    (start 2 (fun _ => ⟨0, 0, 0⟩) 2)).isSome = true := by
  decide +kernel

theorem counters_exact_fetch : ∃ as σ,
    Run (machine 2 (handler fun _ => True)) (start 2 (fun _ => ⟨0, 0, 0⟩) 2) as σ ∧
      statsOf σ 0 = ⟨1, 1, 0, 0, 1⟩ ∧ Counts (statsOf σ 0) (exchanges 0 as) := by
  obtain ⟨as, h⟩ := (replay_reachable (Option.some_get serveOneFetch_runs).symm).run
  exact ⟨as, _, h, by decide +kernel, ((counters_exact (by decide) h).1 0).2⟩

end WebServer.Statistics
