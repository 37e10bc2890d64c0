import WebServer.Answers
import WebServer.Histories
import WebServer.QueueWakeups
import WebServer.Timevals

namespace WebServer.Timestamps

open Monitor RequestQueue QueueRefinement Timevals Message
open QueueWakeups (ofMain goes_role role)
open RequestHandle (statsLines appendStats)
open Answers (appendStats_render)

variable {n cap : Nat} {Script : Type} {handle : Handler Script} {junk : Nat → Request}
  {σ : QueueState n} {as : List (Answer (Tid n) Pc (Choice Script))} {t u : Tid n} {p q : Pc}
  {d d' : Shared n} {f : Tid n → Pc} {e : Choice Script}
  {g : Shared n → Choice Script → Option (Shared n × Pc)}

def timeOf (a : Answer (Tid n) Pc (Choice Script)) : Option Timeval :=
  match a.env with
  | .time now => some now
  | _ => none

/-- The arrival that main stamps. -/
def stampOf (a : Answer (Tid n) Pc (Choice Script)) : Option Timeval :=
  match a.place with
  | .main (.stamp _) => timeOf a
  | _ => none

/-- What a call of `dequeue` takes out, and the time that it takes. -/
def takenOf (a : Answer (Tid n) Pc (Choice Script)) : Option (Request × Timeval) :=
  match a.place with
  | .worker _ (.dequeue (.time req)) => (timeOf a).map fun now => (req, now)
  | _ => none

def clock (as : List (Answer (Tid n) Pc (Choice Script))) : List Timeval := as.filterMap timeOf

def stamps (as : List (Answer (Tid n) Pc (Choice Script))) : List Timeval := as.filterMap stampOf

def taken (as : List (Answer (Tid n) Pc (Choice Script))) : List (Request × Timeval) :=
  as.filterMap takenOf

def takenBy (t : Tid n) (as : List (Answer (Tid n) Pc (Choice Script))) : List (Request × Timeval) :=
  taken (as.filter fun a => decide (a.tid = t))

def Ordered (ts : List Timeval) : Prop := ts.Pairwise fun a b => micros a ≤ micros b

/-- `gettimeofday` never goes backwards. -/
structure Clock (as : List (Answer (Tid n) Pc (Choice Script))) : Prop where
  proper : ∀ now ∈ clock as, Proper now
  ordered : Ordered (clock as)

theorem filterMap_sublist {α β : Type} {f g : α → Option β}
    (h : ∀ a b, f a = some b → g a = some b) (l : List α) : (l.filterMap f).Sublist (l.filterMap g) := by
  induction l with
  | nil => exact .slnil
  | cons a l ih =>
      rw [List.filterMap_cons, List.filterMap_cons]
      cases hf : f a with
      | some b =>
          rw [h a b hf]
          exact ih.cons_cons b
      | none =>
          cases g a with
          | none => exact ih
          | some b => exact ih.cons b

theorem stamps_clock (as : List (Answer (Tid n) Pc (Choice Script))) :
    (stamps as).Sublist (clock as) := by
  refine filterMap_sublist (fun a now ha => ?_) as
  rw [stampOf] at ha
  split at ha
  · exact ha
  · cases ha

theorem taken_clock (as : List (Answer (Tid n) Pc (Choice Script))) :
    ((taken as).map Prod.snd).Sublist (clock as) := by
  rw [taken, List.map_filterMap]
  refine filterMap_sublist (fun a now ha => ?_) as
  obtain ⟨x, hx, rfl⟩ := Option.map_eq_some_iff.1 ha
  rw [takenOf] at hx
  split at hx
  · obtain ⟨now, hnow, rfl⟩ := Option.map_eq_some_iff.1 hx
    exact hnow
  · cases hx

theorem stamp_answer {c : Int} (hi : (mainLoop (.stamp c) : QueueInstr n Script) = .act g)
    (hf : g d e = some (d', q)) :
    ∃ now, e = .time now ∧ d' = d ∧ q = .main (.enqueue ⟨c, now⟩ .lock) := by
  obtain rfl := Instr.act.inj hi
  cases e with
  | time now =>
      obtain ⟨rfl, rfl⟩ := by simpa using hf
      exact ⟨now, rfl, rfl, rfl⟩
  | _ => simp at hf

theorem time_answer {stats : ThreadsStats} {req : Request}
    (hi : (dequeue t stats (.time req) : QueueInstr n Script) = .act g) (hf : g d e = some (d', q)) :
    ∃ now, e = .time now ∧ d' = d ∧ q = .worker stats (.dequeue (.unlock req now)) := by
  obtain rfl := Instr.act.inj hi
  cases e with
  | time now =>
      obtain ⟨rfl, rfl⟩ := by simpa using hf
      exact ⟨now, rfl, rfl, rfl⟩
  | _ => simp at hf

theorem goes_act (hi : code handle t p = .act g) (hf : g d e = some (d', q)) :
    (code handle t p).Goes d q d' := by
  rw [hi]
  exact ⟨e, hf⟩

def stamped : Pc → List Timeval
  | .main (.enqueue r s) => match s with
    | .signal | .unlock => []
    | _ => [r.arrivalTime]
  | _ => []

def arrivals (d : Shared n) : List Timeval := (enqueued d.trace).map Request.arrivalTime

theorem stamped_worker (hp : ofMain p = false) : stamped p = [] := by
  cases p with
  | main p => cases hp
  | worker stats p => rfl

theorem enqueued_snoc (tr : List (Event n)) (ev : Event n) :
    enqueued (tr ++ [ev]) = enqueued tr ++ enqueued [ev] := List.filterMap_append

theorem edge_stamped (h : Edge handle t d p q d') (hp : ∀ c, p ≠ .main (.stamp c)) :
    arrivals d' ++ stamped q = arrivals d ++ stamped p := by
  cases h with
  | stamped c now => exact absurd rfl (hp c)
  | enqueued r =>
      rw [arrivals, enqueued_snoc, List.map_append, List.append_assoc]
      rfl
  | dequeued | returned | closed | finished =>
      rw [arrivals, enqueued_snoc]
      exact congrArg (· ++ _) (congrArg _ (List.append_nil _))
  | _ => rfl

def Entered (as : List (Answer (Tid n) Pc (Choice Script))) (f : Tid n → Pc) (d : Shared n) : Prop :=
  arrivals d ++ stamped (f .main) = stamps as

theorem Entered.other (h : Entered as f d) (hrole : ∀ t, ofMain (f t) = true ↔ t = .main)
    (he : Edge handle t d (f t) q d') (hq : ofMain q = ofMain (f t)) (hp : ∀ c, f t ≠ .main (.stamp c)) :
    Entered as (Function.update f t q) d' := by
  have hstep := edge_stamped he hp
  cases t with
  | main =>
      rw [Entered, Function.update_self, hstep]
      exact h
  | worker i =>
      have hw : ofMain (f (.worker i)) = false := by
        rw [← Bool.not_eq_true, hrole]
        simp
      rw [stamped_worker hw, stamped_worker (hq.trans hw), List.append_nil, List.append_nil] at hstep
      rw [Entered, Function.update_of_ne (by simp), hstep]
      exact h

theorem stampOf_other (hp : ∀ c, p ≠ .main (.stamp c)) :
    stampOf (⟨t, p, e⟩ : Answer (Tid n) Pc (Choice Script)) = none := by
  rw [stampOf]
  split
  · next c hc => exact absurd hc (hp c)
  · rfl

theorem entered (h : Run (machine n handle) (start n junk cap) as σ) :
    Entered as σ.place σ.data := by
  have hknown : ∀ as τ, Run (machine n handle) (start n junk cap) as τ →
      ∀ t, ofMain (τ.place t) = true ↔ t = .main := fun _ _ hr => role hr.reachable
  apply h.invariant_known (B := fun _ f _ => ∀ t, ofMain (f t) = true ↔ t = .main) hknown
  · rfl
  · intro as f d t e g d' q hrole hi hc hf
    by_cases hp : ∃ c, f t = .main (.stamp c)
    · obtain ⟨c, hp⟩ := hp
      obtain rfl : t = .main := (hrole t).1 (by rw [hp]; rfl)
      rw [hp] at hc
      obtain ⟨now, rfl, rfl, rfl⟩ := stamp_answer hc hf
      rw [Entered, hp] at hi
      rw [Entered, Function.update_self, hp, stamps, List.filterMap_append]
      exact congrArg (· ++ [now]) ((List.append_nil _).symm.trans hi)
    · have hp : ∀ c, f t ≠ .main (.stamp c) := fun c hc => hp ⟨c, hc⟩
      have hg := goes_act hc hf
      have hi := Entered.other hi hrole (goes_edge hg) (goes_role hg) hp
      rw [Entered, stamps, List.filterMap_append, List.filterMap_cons_none (stampOf_other hp)]
      rw [Entered] at hi
      exact hi.trans (List.append_nil _).symm
  · intro as f d t q hrole hi hsilent hg
    refine hi.other hrole (goes_edge hg) (goes_role hg) fun c hp => ?_
    rw [hp] at hsilent
    exact hsilent _ rfl

def taking : Pc → Bool
  | .worker _ p => match p with
    | .dequeue (.decrement _) | .dequeue (.time _) => true
    | _ => false
  | _ => false

theorem taking_holds (hp : taking p = true) : holds p = true := by
  cases p with
  | main p => cases hp
  | worker stats p =>
      cases p with
      | dequeue s => cases s <;> first | rfl | cases hp
      | _ => cases hp

theorem taking_owner (h : Reachable (machine n handle) (start n junk cap) σ)
    (ht : taking (σ.place t) = true) : σ.owner = some t := by
  cases hφ : σ.phase t with
  | run p =>
      rw [place_of_run hφ] at ht
      refine ((guarded h).1 t).1 ?_
      rw [hφ]
      exact taking_holds ht
  | asleep c q | woken q =>
      have hpl : σ.place t = q := by rw [State.place, hφ]; rfl
      have hw : (∃ c, σ.phase t = .asleep c q) ∨ σ.phase t = .woken q := by simp [hφ]
      rw [hpl] at ht
      rcases waiter_place h hw with ⟨k, rfl⟩ | ⟨r, rfl⟩ | ⟨stats, rfl⟩ <;> cases ht

def untimed : Pc → List Request
  | .worker _ (.dequeue (.time req)) => [req]
  | _ => []

theorem untimed_taking (hp : untimed p ≠ []) : taking p = true := by
  cases p with
  | main p => exact absurd rfl hp
  | worker stats p =>
      cases p with
      | dequeue s => cases s <;> first | rfl | exact absurd rfl hp
      | _ => exact absurd rfl hp

def Alone (f : Tid n → Pc) : Prop := ∀ t u, taking (f t) = true → taking (f u) = true → u = t

theorem alone (h : Reachable (machine n handle) (start n junk cap) σ) : Alone σ.place := by
  intro t u ht hu
  exact Option.some.inj ((taking_owner h hu).symm.trans (taking_owner h ht))

theorem Alone.others (h : Alone f) (ht : taking (f t) = true) (hu : u ≠ t) : untimed (f u) = [] := by
  by_contra hne
  exact hu (h t u ht (untimed_taking hne))

theorem dequeued_snoc (tr : List (Event n)) (ev : Event n) :
    dequeued (tr ++ [ev]) = dequeued tr ++ dequeued [ev] := List.filterMap_append

theorem edge_untimed (h : Edge handle t d p q d') :
    (∃ stats req, p = .worker stats (.dequeue (.decrement req)) ∧
      q = .worker stats (.dequeue (.time req)) ∧ dequeued d'.trace = dequeued d.trace ++ [req]) ∨
    (∃ stats req, p = .worker stats (.dequeue (.time req))) ∨
    untimed p = [] ∧ untimed q = [] ∧ dequeued d'.trace = dequeued d.trace := by
  cases h with
  | dequeued stats req => exact .inl ⟨stats, req, rfl, rfl, dequeued_snoc _ _⟩
  | timeRead stats req now => exact .inr (.inl ⟨stats, req, rfl⟩)
  | enqueued | returned | closed | finished =>
      exact .inr (.inr ⟨rfl, rfl, (dequeued_snoc _ _).trans (List.append_nil _)⟩)
  | _ => exact .inr (.inr ⟨rfl, rfl, rfl⟩)

def Timed (as : List (Answer (Tid n) Pc (Choice Script))) (f : Tid n → Pc) (d : Shared n) : Prop :=
  ∀ t, (∀ u, u ≠ t → untimed (f u) = []) →
    dequeued d.trace = (taken as).map Prod.fst ++ untimed (f t)

theorem Timed.other (h : Timed as f d) (he : Edge handle t d (f t) q d')
    (hp : ∀ stats req, f t ≠ .worker stats (.dequeue (.time req))) :
    Timed as (Function.update f t q) d' := by
  intro u hu
  rcases edge_untimed he with ⟨stats, req, hp, rfl, hd⟩ | ⟨stats, req, hp'⟩ | ⟨hp, hq, hd⟩
  · have hut : u = t := by
      by_contra hne
      have hnil := hu t (Ne.symm hne)
      rw [Function.update_self] at hnil
      cases hnil
    subst u
    have ht := h t fun v hv => by
      have hv' := hu v hv
      rwa [Function.update_of_ne hv] at hv'
    rw [hp] at ht
    rw [hd, ht, Function.update_self]
    exact congrArg (· ++ _) (List.append_nil _)
  · exact absurd hp' (hp stats req)
  · have hsame (v : Tid n) : untimed (Function.update f t q v) = untimed (f v) := by
      by_cases hv : v = t
      · subst v
        rw [Function.update_self, hp, hq]
      · rw [Function.update_of_ne hv]
    rw [hd, hsame u]
    exact h u fun v hv => by rw [← hsame v]; exact hu v hv

theorem taken_append (as bs : List (Answer (Tid n) Pc (Choice Script))) :
    taken (as ++ bs) = taken as ++ taken bs := List.filterMap_append

theorem Timed.time (h : Timed as f d) (ha : Alone f) {stats : ThreadsStats} {req : Request}
    {now : Timeval} (hp : f t = .worker stats (.dequeue (.time req))) :
    Timed (as ++ [⟨t, f t, .time now⟩]) (Function.update f t (.worker stats (.dequeue (.unlock req now)))) d := by
  have htaking : taking (f t) = true := by rw [hp]; rfl
  have hothers (u : Tid n) (hu : u ≠ t) : untimed (f u) = [] := ha.others htaking hu
  intro u _
  have hnone : untimed (Function.update f t (.worker stats (.dequeue (.unlock req now))) u) = [] := by
    by_cases hu : u = t
    · subst u
      rw [Function.update_self]
      rfl
    · rw [Function.update_of_ne hu]
      exact hothers u hu
  rw [hnone, h t hothers, taken_append, hp, List.map_append, List.append_nil]
  rfl

theorem takenOf_other (hp : ∀ stats req, p ≠ .worker stats (.dequeue (.time req))) :
    takenOf (⟨t, p, e⟩ : Answer (Tid n) Pc (Choice Script)) = none := by
  rw [takenOf]
  split
  · next stats req hc => exact absurd hc (hp stats req)
  · rfl

theorem taken_snoc (as : List (Answer (Tid n) Pc (Choice Script)))
    {a : Answer (Tid n) Pc (Choice Script)} (ha : takenOf a = none) : taken (as ++ [a]) = taken as := by
  rw [taken_append]
  exact (congrArg (_ ++ ·) (List.filterMap_cons_none ha)).trans (List.append_nil _)

theorem timed (h : Run (machine n handle) (start n junk cap) as σ) : Timed as σ.place σ.data := by
  apply h.invariant_known (B := fun _ f _ => Alone f) fun _ _ hr => alone hr.reachable
  · intro t _
    cases t <;> rfl
  · intro as f d t e g d' q ha hi hc hf
    by_cases hp : ∃ stats req, f t = .worker stats (.dequeue (.time req))
    · obtain ⟨stats, req, hp⟩ := hp
      have hc' : (dequeue t stats (.time req) : QueueInstr n Script) = .act g := by rw [hp] at hc; exact hc
      obtain ⟨now, rfl, rfl, rfl⟩ := time_answer hc' hf
      exact hi.time ha hp
    · have hp : ∀ stats req, f t ≠ .worker stats (.dequeue (.time req)) :=
        fun stats req hc => hp ⟨stats, req, hc⟩
      have hi := Timed.other hi (goes_edge (goes_act hc hf)) hp
      intro u hu
      rw [taken_snoc _ (takenOf_other hp)]
      exact hi u hu
  · intro as f d t q ha hi hsilent hg
    refine hi.other (goes_edge hg) fun stats req hp => ?_
    rw [hp] at hsilent
    exact hsilent _ rfl

def Interval (l : List (Request × Timeval)) : Pc → Prop
  | .worker _ p => match p with
    | .dequeue (.unlock req now) | .timersub req now => l.getLast? = some (req, now)
    | .handle req dispatch => ∃ now, l.getLast? = some (req, now) ∧ dispatch = timersub now req.arrivalTime
    | _ => True
  | _ => True

theorem goes_interval {l : List (Request × Timeval)} (hg : (code handle t p).Goes d q d')
    (hp : ∀ stats req, p ≠ .worker stats (.dequeue (.time req))) (h : Interval l p) : Interval l q := by
  by_cases hsub : ∃ stats req now, p = .worker stats (.timersub req now)
  · obtain ⟨stats, req, now, rfl⟩ := hsub
    obtain ⟨rfl, rfl⟩ := goes_stmt.1 hg
    exact ⟨now, h, rfl⟩
  · cases goes_edge hg with
    | timeRead stats req now => exact absurd rfl (hp stats req)
    | timeTaken stats req now dispatch => exact absurd ⟨stats, req, now, rfl⟩ hsub
    | dequeueUnlocked stats req now => exact h
    | exited stats req dispatch => exact h
    | _ => trivial

theorem takenBy_other (as : List (Answer (Tid n) Pc (Choice Script)))
    {a : Answer (Tid n) Pc (Choice Script)} (ha : a.tid = u → takenOf a = none) :
    takenBy u (as ++ [a]) = takenBy u as := by
  have hnone : taken ([a].filter fun a => decide (a.tid = u)) = [] := by
    by_cases hu : a.tid = u
    · simp [hu, taken, ha hu]
    · simp [hu, taken]
  rw [takenBy, List.filter_append, taken_append, hnone, List.append_nil, takenBy]

theorem interval (h : Run (machine n handle) (start n junk cap) as σ) (u : Tid n) :
    Interval (takenBy u as) (σ.place u) := by
  refine h.invariant (I := fun as f _ => ∀ u, Interval (takenBy u as) (f u)) ?_ ?_ ?_ u
  · intro u
    cases u <;> trivial
  · intro as f d t e g d' q hi hc hf u
    by_cases hp : ∃ stats req, f t = .worker stats (.dequeue (.time req))
    · obtain ⟨stats, req, hp⟩ := hp
      have hc' : (dequeue t stats (.time req) : QueueInstr n Script) = .act g := by rw [hp] at hc; exact hc
      obtain ⟨now, rfl, rfl, rfl⟩ := time_answer hc' hf
      by_cases hu : u = t
      · subst u
        have hlast : takenBy t (as ++ [⟨t, f t, .time now⟩]) = takenBy t as ++ [(req, now)] := by
          rw [takenBy, List.filter_append, taken_append, List.filter_cons_of_pos (by simp), hp]
          rfl
        rw [Function.update_self, hlast]
        exact List.getLast?_concat
      · rw [Function.update_of_ne hu, takenBy_other as fun ht => absurd ht.symm hu]
        exact hi u
    · have hp : ∀ stats req, f t ≠ .worker stats (.dequeue (.time req)) :=
        fun stats req hc => hp ⟨stats, req, hc⟩
      rw [takenBy_other as fun _ => takenOf_other hp]
      by_cases hu : u = t
      · subst u
        rw [Function.update_self]
        exact goes_interval (goes_act hc hf) hp (hi t)
      · rw [Function.update_of_ne hu]
        exact hi u
  · intro as f d t q hi hsilent hg u
    by_cases hu : u = t
    · subst u
      rw [Function.update_self]
      refine goes_interval hg (fun stats req hp => ?_) (hi t)
      rw [hp] at hsilent
      exact hsilent _ rfl
    · rw [Function.update_of_ne hu]
      exact hi u

structure Passed (as : List (Answer (Tid n) Pc (Choice Script))) (f : Tid n → Pc) (d : Shared n) :
    Prop where
  entered : Entered as f d
  timed : Timed as f d
  alone : Alone f
  order : dequeued d.trace <+: enqueued d.trace

theorem passed (hcap : 1 ≤ cap) (h : Run (machine n handle) (start n junk cap) as σ) :
    Passed as σ.place σ.data := by
  obtain ⟨q, hq⟩ := after_reachable hcap h.reachable
  exact ⟨entered h, timed h, alone h.reachable, q.pending, (enqueued_eq hq).symm⟩

theorem Passed.stamped (h : Passed as f d) {stats : ThreadsStats} {req : Request}
    (hp : f t = .worker stats (.dequeue (.time req))) : req.arrivalTime ∈ clock as := by
  have htaking : taking (f t) = true := by rw [hp]; rfl
  have hd := h.timed t fun u hu => h.alone.others htaking hu
  rw [hp] at hd
  have hdequeued : req ∈ dequeued d.trace := by
    rw [hd]
    exact List.mem_append_right _ (List.mem_singleton.2 rfl)
  have harrival : req.arrivalTime ∈ arrivals d :=
    List.mem_map_of_mem (h.order.subset hdequeued)
  apply (stamps_clock as).subset
  rw [← h.entered]
  exact List.mem_append_left _ harrival

theorem taken_after (hcap : 1 ≤ cap) (h : Run (machine n handle) (start n junk cap) as σ)
    (hc : Ordered (clock as)) :
    ∀ x ∈ taken as, x.1.arrivalTime ∈ clock as ∧ micros x.1.arrivalTime ≤ micros x.2 := by
  refine h.invariant_known (I := fun as _ _ => Ordered (clock as) →
    ∀ x ∈ taken as, x.1.arrivalTime ∈ clock as ∧ micros x.1.arrivalTime ≤ micros x.2)
    (B := Passed) (fun _ _ hr => passed hcap hr) ?_ ?_ ?_ hc
  · intro _ x hx
    cases hx
  · intro as f d t e g d' q hk hi hcode hf hordered x hx
    have hclock : clock (as ++ [⟨t, f t, e⟩]) = clock as ++ clock [⟨t, f t, e⟩] := List.filterMap_append
    rw [hclock] at hordered ⊢
    obtain ⟨hbefore, -, hlast⟩ := List.pairwise_append.1 hordered
    rw [taken_append] at hx
    rcases List.mem_append.1 hx with hx | hx
    · obtain ⟨hmem, hle⟩ := hi hbefore x hx
      exact ⟨List.mem_append_left _ hmem, hle⟩
    · by_cases hp : ∃ stats req, f t = .worker stats (.dequeue (.time req))
      · obtain ⟨stats, req, hp⟩ := hp
        have hcode' : (dequeue t stats (.time req) : QueueInstr n Script) = .act g := by
          rw [hp] at hcode
          exact hcode
        obtain ⟨now, rfl, rfl, rfl⟩ := time_answer hcode' hf
        have hstamped := hk.stamped hp
        rw [hp] at hx
        obtain rfl : x = (req, now) := List.mem_singleton.1 hx
        exact ⟨List.mem_append_left _ hstamped, hlast _ hstamped _ (List.mem_singleton.2 rfl)⟩
      · have hp : ∀ stats req, f t ≠ .worker stats (.dequeue (.time req)) :=
          fun stats req hc => hp ⟨stats, req, hc⟩
        have hnone : taken [(⟨t, f t, e⟩ : Answer (Tid n) Pc (Choice Script))] = [] :=
          List.filterMap_cons_none (takenOf_other hp)
        rw [hnone] at hx
        cases hx
  · exact fun _ _ _ _ _ _ hi _ _ => hi

theorem stamps_of_entered (h : Entered as f d) : (arrivals d).Sublist (clock as) := by
  have hs := stamps_clock as
  rw [← h] at hs
  exact (List.sublist_append_left _ _).trans hs

theorem taken_order (h : Timed as f d) (ha : Alone f) :
    (taken as).map Prod.fst <+: dequeued d.trace := by
  by_cases hu : ∃ t, untimed (f t) ≠ []
  · obtain ⟨t, ht⟩ := hu
    rw [h t fun u hu => ha.others (untimed_taking ht) hu]
    exact List.prefix_append _ _
  · rw [not_exists] at hu
    rw [h .main fun u _ => not_not.1 (hu u)]
    exact List.prefix_append _ _

theorem taken_of_last {x : Request × Timeval} (h : (takenBy t as).getLast? = some x) : x ∈ taken as := by
  have hx : x ∈ takenBy t as := List.mem_of_getLast? h
  obtain ⟨a, ha, hax⟩ := List.mem_filterMap.1 hx
  exact List.mem_filterMap.2 ⟨a, (List.mem_filter.1 ha).1, hax⟩

/-- The arrivals are in the order of service, and so are the times at which requests are
taken out; the interval that is handed to `requestHandle` is the time between the two,
and the line of `append_stats` that tells it is exact. -/
theorem times_in_order (hcap : 1 ≤ cap) (h : Run (machine n handle) (start n junk cap) as σ)
    (hc : Clock as) :
    Ordered ((enqueued σ.data.trace).map Request.arrivalTime) ∧
    Ordered ((dequeued σ.data.trace).map Request.arrivalTime) ∧
    (taken as).map Prod.fst <+: dequeued σ.data.trace ∧ Ordered ((taken as).map Prod.snd) ∧
    ∀ t stats req dispatch, σ.place t = .worker stats (.handle req dispatch) →
      ∃ now, (takenBy t as).getLast? = some (req, now) ∧ dispatch = timersub now req.arrivalTime ∧
        0 ≤ dispatch.sec ∧ Proper dispatch ∧ timeradd req.arrivalTime dispatch = now ∧
        (∀ stats' lines, appendStats (render lines) stats' req.arrivalTime dispatch =
            render (lines ++ statsLines stats' req.arrivalTime dispatch) ++ crlf ∧
          str "Stat-Req-Dispatch:: " ++ written dispatch ∈
            statsLines stats' req.arrivalTime dispatch) ∧
        readDecimal ((written dispatch).filter fun b => decide (b ≠ dot)) =
          some (micros now - micros req.arrivalTime).toNat := by
  have hp := passed hcap h
  have harrivals : Ordered (arrivals σ.data) := hc.ordered.sublist (stamps_of_entered hp.entered)
  refine ⟨harrivals, harrivals.sublist (hp.order.sublist.map _), taken_order hp.timed hp.alone,
    hc.ordered.sublist (taken_clock as), fun t stats req dispatch hplace => ?_⟩
  have hinterval := interval h t
  rw [hplace] at hinterval
  obtain ⟨now, hlast, rfl⟩ := hinterval
  have htaken := taken_of_last hlast
  obtain ⟨hstamped, hle⟩ := taken_after hcap h hc.ordered _ htaken
  have hnow : Proper now := hc.proper _ ((taken_clock as).subset (List.mem_map_of_mem htaken))
  have harrival := hc.proper _ hstamped
  have hproper := timersub_proper hnow harrival
  have hsec : 0 ≤ (timersub now req.arrivalTime).sec := by
    apply hproper.sec_nonneg
    rw [micros_timersub]
    exact Int.sub_nonneg_of_le hle
  refine ⟨now, hlast, rfl, hsec, hproper, timeradd_timersub hnow harrival, fun stats' lines => ?_, ?_⟩
  · exact ⟨appendStats_render lines stats' _ _, by simp [statsLines, written]⟩
  · rw [readDecimal_written hproper hsec, micros_timersub]

def waitBriefly : List (Tid 1 × Choice Unit) :=
  let main (k : Nat) : List (Tid 1 × Choice Unit) := List.replicate k (.main, .ok)
  let worker (k : Nat) : List (Tid 1 × Choice Unit) := List.replicate k (.worker 0, .ok)
  [[(.main, .accepted 4)], main 3, [(.main, .time ⟨4, 999998⟩)], main 9, worker 5,
    [(.worker 0, .time ⟨5, 3⟩)], worker 2].flatten

theorem waitBriefly_runs : ((machine 1 returns).replay waitBriefly
    (start 1 (fun _ => ⟨0, 0, 0⟩) 1)).isSome = true := by
  decide +kernel

theorem times_in_order_briefly : ∃ as σ,
    Run (machine 1 returns) (start 1 (fun _ => ⟨0, 0, 0⟩) 1) as σ ∧
      ∃ now, (takenBy (.worker 0) as).getLast? = some (⟨4, ⟨4, 999998⟩⟩, now) ∧
        timeradd ⟨4, 999998⟩ ⟨0, 5⟩ = now := by
  have h := replay_run .start (Option.some_get waitBriefly_runs).symm
  rw [List.nil_append] at h
  have hc : Clock ((machine 1 returns).answers waitBriefly (start 1 (fun _ => ⟨0, 0, 0⟩) 1)) := by
    constructor
    · decide +kernel
    · rw [Ordered]
      decide +kernel
  have hplace : (((machine 1 returns).replay waitBriefly
      (start 1 (fun _ => ⟨0, 0, 0⟩) 1)).get waitBriefly_runs).place (.worker 0) =
      .worker ⟨1, 0, 0, 0, 0⟩ (.handle ⟨4, ⟨4, 999998⟩⟩ ⟨0, 5⟩) := by rfl
  obtain ⟨now, hlast, -, -, -, hadd, -⟩ := (times_in_order (by decide) h hc).2.2.2.2 _ _ _ _ hplace
  exact ⟨_, _, h, now, hlast, hadd⟩

end WebServer.Timestamps
