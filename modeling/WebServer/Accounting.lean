import WebServer.Connections

namespace WebServer.Accounting

open Monitor Message RequestCalls Sessions Server Connections
open QueueDrain (pending_eq)
open QueueRefinement (ops ops_snoc)
open RingBuffer (popped isFinish)
open QueueWakeups (Proceeds Returns sleeper_place worker_moves moves_of_pending moves_of_owner)
open RequestQueue (QueueState Tid Request)

variable {n : Nat}

def lifeOf : Event n → Option Nat
  | .accepted k _ | .enqueued k | .dequeued k _ | .returned k _ | .closed k _ | .finished k _ => some k
  | _ => none

/-- What has happened to connection `k`. -/
def life (k : Nat) (tr : List (Event n)) : List (Event n) :=
  tr.filter fun e => decide (lifeOf e = some k)

def story (k : Nat) (connfd : Int) (i : Fin n) : List (Event n) :=
  [.accepted k connfd, .enqueued k, .dequeued k i, .returned k i, .closed k i, .finished k i]

/-- How far connection `k` has come, and who has it. -/
inductive Life (look : Tid n → View) (es ds : List Request) (serving : Fin n → Nat) (accepts k : Nat) :
    List (Event n) → Prop
  | unseen (new : accepts ≤ k) : Life look es ds serving accepts k []
  | held {connfd} (main : held (look .main) = some connfd) (last : k + 1 = accepts) :
      Life look es ds serving accepts k [.accepted k connfd]
  | pending {req} (waits : ds.length ≤ k) (entry : es[k]? = some req) :
      Life look es ds serving accepts k [.accepted k req.connfd, .enqueued k]
  | served {i req} (worker : look (.worker i) = .taken req ∨ look (.worker i) = .handling req)
      (number : serving i = k) : Life look es ds serving accepts k
        [.accepted k req.connfd, .enqueued k, .dequeued k i]
  | closing {i req} (worker : look (.worker i) = .closing req) (number : serving i = k) :
      Life look es ds serving accepts k
        [.accepted k req.connfd, .enqueued k, .dequeued k i, .returned k i]
  | finishing {i connfd} (worker : look (.worker i) = .finishing) (number : serving i = k) :
      Life look es ds serving accepts k
        [.accepted k connfd, .enqueued k, .dequeued k i, .returned k i, .closed k i]
  | ended {i connfd} (taken : k < ds.length)
      (left : ∀ j, busy (look (.worker j)) = true → serving j ≠ k) :
      Life look es ds serving accepts k (story k connfd i)

variable {cap : Nat} {junk : Nat → Request} {byte : Nat → ServerLog.Byte} {listenfd : Int}
  {s s' : System n} {look : Tid n → View} {es ds : List Request} {serving : Fin n → Nat}
  {accepts k : Nat} {i : Fin n} {evs : List (Event n)} {req : Request} {v : View}
  {tr : List (Event n)}

theorem life_own {e : Event n} (h : lifeOf e = some k) (tr : List (Event n)) :
    life k (tr ++ [e]) = life k tr ++ [e] := by
  rw [life, List.filter_append, life]
  simp [h]

theorem life_other {e : Event n} (h : lifeOf e ≠ some k) (tr : List (Event n)) :
    life k (tr ++ [e]) = life k tr := by
  rw [life, List.filter_append, life]
  simp [h]

theorem numbers_le (hn : Numbers look es ds serving accepts) (hds : ds <+: es) :
    ds.length ≤ es.length ∧ es.length ≤ accepts := by
  refine ⟨hds.length_le, ?_⟩
  rw [hn.accepts]
  omega

theorem Life.waiting (hn : Numbers look es ds serving accepts)
    (h : Life look es ds serving accepts k evs) (hk : ds.length ≤ k) :
    (accepts ≤ k ∧ evs = []) ∨
    (∃ connfd, Connections.held (look .main) = some connfd ∧ k + 1 = accepts ∧
      evs = [.accepted k connfd]) ∨
    ∃ req, es[k]? = some req ∧ evs = [.accepted k req.connfd, .enqueued k] := by
  have untaken {j : Fin n} (hj : busy (look (.worker j)) = true) : serving j ≠ k := by
    have := hn.below j hj
    omega
  cases h with
  | unseen new => exact .inl ⟨new, rfl⟩
  | held main last => exact .inr (.inl ⟨_, main, last, rfl⟩)
  | pending waits entry => exact .inr (.inr ⟨_, entry, rfl⟩)
  | served worker number =>
      rcases worker with hw | hw <;> exact absurd number (untaken (by rw [hw]; rfl))
  | closing worker number | finishing worker number =>
      exact absurd number (untaken (by rw [worker]; rfl))
  | ended taken left => omega

theorem Life.new (hn : Numbers look es ds serving accepts) (hds : ds <+: es)
    (h : Life look es ds serving accepts k evs) (hk : accepts ≤ k) : evs = [] := by
  obtain ⟨hle, hle'⟩ := numbers_le hn hds
  rcases h.waiting hn (by omega) with ⟨-, he⟩ | ⟨connfd, -, hlast, -⟩ | ⟨req, hreq, -⟩
  · exact he
  · omega
  · have := (List.getElem?_eq_some_iff.1 hreq).1
    omega

theorem Life.newest (hn : Numbers look es ds serving accepts) (hds : ds <+: es)
    (h : Life look es ds serving accepts es.length evs) {connfd : Int}
    (hheld : Connections.held (look .main) = some connfd) :
    evs = [.accepted es.length connfd] := by
  have haccepts : accepts = es.length + 1 := by rw [hn.accepts, hheld]; rfl
  rcases h.waiting hn hds.length_le with ⟨hnew, -⟩ | ⟨connfd', hmain, -, he⟩ | ⟨req, hreq, -⟩
  · omega
  · rwa [Option.some.inj (hheld.symm.trans hmain)]
  · simp at hreq

theorem Life.oldest (hn : Numbers look es ds serving accepts) (hds : ds <+: es)
    (h : Life look es ds serving accepts ds.length evs) (hnext : es[ds.length]? = some req) :
    evs = [.accepted ds.length req.connfd, .enqueued ds.length] := by
  obtain ⟨-, hle⟩ := numbers_le hn hds
  have hlt := (List.getElem?_eq_some_iff.1 hnext).1
  rcases h.waiting hn le_rfl with ⟨hnew, -⟩ | ⟨connfd, hmain, hlast, -⟩ | ⟨req', hreq, he⟩
  · omega
  · have haccepts := hn.accepts
    rw [hmain, Option.isSome_some, if_pos rfl] at haccepts
    omega
  · rwa [Option.some.inj (hnext.symm.trans hreq)]

theorem Life.worker (hn : Numbers look es ds serving accepts) (hds : ds <+: es)
    (h : Life look es ds serving accepts (serving i) evs) (hbusy : busy (look (.worker i)) = true) :
    (∃ req, (look (.worker i) = .taken req ∨ look (.worker i) = .handling req) ∧
      evs = [.accepted (serving i) req.connfd, .enqueued (serving i), .dequeued (serving i) i]) ∨
    (∃ req, look (.worker i) = .closing req ∧
      evs = [.accepted (serving i) req.connfd, .enqueued (serving i), .dequeued (serving i) i,
        .returned (serving i) i]) ∨
    ∃ connfd, look (.worker i) = .finishing ∧
      evs = [.accepted (serving i) connfd, .enqueued (serving i), .dequeued (serving i) i,
        .returned (serving i) i, .closed (serving i) i] := by
  obtain ⟨hle, hle'⟩ := numbers_le hn hds
  have hlt := hn.below i hbusy
  have same {j : Fin n} (hj : busy (look (.worker j)) = true) (hjk : serving j = serving i) : j = i :=
    hn.distinct j i hj hbusy hjk
  cases h with
  | unseen new => omega
  | held main last =>
      have haccepts := hn.accepts
      rw [main, Option.isSome_some, if_pos rfl] at haccepts
      omega
  | pending waits entry => omega
  | served worker number =>
      obtain rfl := same (by rcases worker with hw | hw <;> rw [hw] <;> rfl) number
      exact .inl ⟨_, worker, rfl⟩
  | closing worker number =>
      obtain rfl := same (by rw [worker]; rfl) number
      exact .inr (.inl ⟨_, worker, rfl⟩)
  | finishing worker number =>
      obtain rfl := same (by rw [worker]; rfl) number
      exact .inr (.inr ⟨_, worker, rfl⟩)
  | ended taken left => exact absurd rfl (left i hbusy)

theorem Life.other (h : Life look es ds serving accepts k evs) (hk : serving i ≠ k) :
    Life (Function.update look (.worker i) v) es ds serving accepts k evs := by
  have hmain : Function.update look (.worker i) v .main = look .main :=
    Function.update_of_ne (by simp) _ _
  have hother {j : Fin n} (hj : serving j = k) :
      Function.update look (.worker i) v (.worker j) = look (.worker j) := by
    refine Function.update_of_ne ?_ _ _
    rintro ⟨⟩
    exact hk hj
  cases h with
  | unseen new => exact .unseen new
  | held main last => exact .held (by rwa [hmain]) last
  | pending waits entry => exact .pending waits entry
  | served worker number => exact .served (by rwa [hother number]) number
  | closing worker number => exact .closing (by rwa [hother number]) number
  | finishing worker number => exact .finishing (by rwa [hother number]) number
  | ended taken left =>
      refine .ended taken fun j hj hjk => ?_
      rw [hother hjk] at hj
      exact left j hj hjk

theorem Life.accepted (hn : Numbers look es ds serving accepts) (hds : ds <+: es)
    (h : Life look es ds serving accepts k (life k tr)) (hmain : look .main = .accepting)
    (connfd : Int) : Life (Function.update look .main (.holding connfd)) es ds serving (accepts + 1) k
      (life k (tr ++ [.accepted accepts connfd])) := by
  have hworker (j : Fin n) : Function.update look .main (.holding connfd) (.worker j) = look (.worker j) :=
    Function.update_of_ne (by simp) _ _
  by_cases hk : k = accepts
  · rw [life_own (by rw [hk]; rfl), h.new hn hds hk.ge, List.nil_append, hk]
    exact .held (by rw [Function.update_self]; rfl) rfl
  · rw [life_other (by simpa [lifeOf] using Ne.symm hk)]
    generalize life k tr = evs at h
    cases h with
    | unseen new => exact .unseen (by omega)
    | held main last => rw [hmain] at main; cases main
    | pending waits entry => exact .pending waits entry
    | served worker number => exact .served (by rwa [hworker]) number
    | closing worker number => exact .closing (by rwa [hworker]) number
    | finishing worker number => exact .finishing (by rwa [hworker]) number
    | ended taken left => exact .ended taken fun j hj => left j (by rwa [hworker] at hj)

theorem Life.enqueued (hn : Numbers look es ds serving accepts) (hds : ds <+: es)
    (h : Life look es ds serving accepts k (life k tr)) (hmain : look .main = .holding req.connfd) :
    Life (Function.update look .main .accepting) (es ++ [req]) ds serving accepts k
      (life k (tr ++ [.enqueued es.length])) := by
  have hheld : Connections.held (look .main) = some req.connfd := by rw [hmain]; rfl
  have haccepts : accepts = es.length + 1 := by rw [hn.accepts, hheld]; rfl
  have hworker (j : Fin n) : Function.update look .main .accepting (.worker j) = look (.worker j) :=
    Function.update_of_ne (by simp) _ _
  by_cases hk : k = es.length
  · subst k
    rw [life_own rfl, h.newest hn hds hheld]
    exact .pending hds.length_le (by simp)
  · rw [life_other (by simpa [lifeOf] using Ne.symm hk)]
    generalize life k tr = evs at h
    cases h with
    | unseen new => exact .unseen new
    | held main last => omega
    | pending waits entry =>
        have hlt := (List.getElem?_eq_some_iff.1 entry).1
        exact .pending waits (by rwa [List.getElem?_append_left hlt])
    | served worker number => exact .served (by rwa [hworker]) number
    | closing worker number => exact .closing (by rwa [hworker]) number
    | finishing worker number => exact .finishing (by rwa [hworker]) number
    | ended taken left => exact .ended taken fun j hj => left j (by rwa [hworker] at hj)

theorem Life.dequeued (hn : Numbers look es ds serving accepts) (hds : ds <+: es)
    (h : Life look es ds serving accepts k (life k tr)) (hfree : look (.worker i) = .free)
    (hnext : es[ds.length]? = some req) :
    Life (Function.update look (.worker i) (.taken req)) es (ds ++ [req])
      (Function.update serving i ds.length) accepts k (life k (tr ++ [.dequeued ds.length i])) := by
  have hother {j : Fin n} (hj : look (.worker j) ≠ .free) :
      Function.update look (.worker i) (.taken req) (.worker j) = look (.worker j) ∧
        Function.update serving i ds.length j = serving j := by
    have hne : j ≠ i := by
      rintro rfl
      exact hj hfree
    exact ⟨Function.update_of_ne (by simpa using hne) _ _, Function.update_of_ne hne _ _⟩
  by_cases hk : k = ds.length
  · subst k
    rw [life_own rfl, h.oldest hn hds hnext]
    exact .served (.inl (Function.update_self _ _ _)) (Function.update_self _ _ _)
  · rw [life_other (by simpa [lifeOf] using Ne.symm hk)]
    generalize life k tr = evs at h
    cases h with
    | unseen new => exact .unseen new
    | held main last => exact .held (by rwa [Function.update_of_ne (by simp)]) last
    | pending waits entry =>
        exact .pending (by rw [List.length_append, List.length_singleton]; omega) entry
    | served worker number =>
        obtain ⟨hlook, hserving⟩ := hother (by rcases worker with hw | hw <;> rw [hw] <;> nofun)
        exact .served (by rwa [hlook]) (by rwa [hserving])
    | closing worker number =>
        obtain ⟨hlook, hserving⟩ := hother (by rw [worker]; nofun)
        exact .closing (by rwa [hlook]) (by rwa [hserving])
    | finishing worker number =>
        obtain ⟨hlook, hserving⟩ := hother (by rw [worker]; nofun)
        exact .finishing (by rwa [hlook]) (by rwa [hserving])
    | ended taken left =>
        refine .ended (by rw [List.length_append]; omega) fun j hj => ?_
        by_cases hji : j = i
        · subst j
          rw [Function.update_self]
          exact Ne.symm hk
        · rw [Function.update_of_ne (by simpa using hji)] at hj
          rw [Function.update_of_ne hji]
          exact left j hj

theorem Life.called (hn : Numbers look es ds serving accepts) (hds : ds <+: es)
    (h : Life look es ds serving accepts k evs) (htaken : look (.worker i) = .taken req) :
    Life (Function.update look (.worker i) (.handling req)) es ds serving accepts k evs := by
  by_cases hk : serving i = k
  · subst k
    rcases h.worker hn hds (by rw [htaken]; rfl) with ⟨req', hreq, rfl⟩ | ⟨req', hreq, -⟩ | ⟨c, hc, -⟩
    · obtain rfl : req = req' := by simpa [htaken] using hreq
      exact .served (.inr (Function.update_self _ _ _)) rfl
    · rw [htaken] at hreq; cases hreq
    · rw [htaken] at hc; cases hc
  · exact h.other hk

theorem Life.returned (hn : Numbers look es ds serving accepts) (hds : ds <+: es)
    (h : Life look es ds serving accepts k (life k tr)) (hcall : look (.worker i) = .handling req) :
    Life (Function.update look (.worker i) (.closing req)) es ds serving accepts k
      (life k (tr ++ [.returned (serving i) i])) := by
  by_cases hk : serving i = k
  · subst k
    rw [life_own rfl]
    rcases h.worker hn hds (by rw [hcall]; rfl) with ⟨req', hreq, he⟩ | ⟨req', hreq, -⟩ | ⟨c, hc, -⟩
    · obtain rfl : req = req' := by simpa [hcall] using hreq
      rw [he]
      exact .closing (Function.update_self _ _ _) rfl
    · rw [hcall] at hreq; cases hreq
    · rw [hcall] at hc; cases hc
  · rw [life_other (by simpa [lifeOf] using hk)]
    exact h.other hk

theorem Life.closed (hn : Numbers look es ds serving accepts) (hds : ds <+: es)
    (h : Life look es ds serving accepts k (life k tr)) (hclose : look (.worker i) = .closing req) :
    Life (Function.update look (.worker i) .finishing) es ds serving accepts k
      (life k (tr ++ [.closed (serving i) i])) := by
  by_cases hk : serving i = k
  · subst k
    rw [life_own rfl]
    rcases h.worker hn hds (by rw [hclose]; rfl) with ⟨req', hreq, -⟩ | ⟨req', -, he⟩ | ⟨c, hc, -⟩
    · simp [hclose] at hreq
    · rw [he]
      exact .finishing (Function.update_self _ _ _) rfl
    · rw [hclose] at hc; cases hc
  · rw [life_other (by simpa [lifeOf] using hk)]
    exact h.other hk

theorem Life.finished (hn : Numbers look es ds serving accepts) (hds : ds <+: es)
    (h : Life look es ds serving accepts k (life k tr)) (hlast : look (.worker i) = .finishing) :
    Life (Function.update look (.worker i) .free) es ds serving accepts k
      (life k (tr ++ [.finished (serving i) i])) := by
  have hbusy : busy (look (.worker i)) = true := by rw [hlast]; rfl
  by_cases hk : serving i = k
  · subst k
    rw [life_own rfl]
    rcases h.worker hn hds hbusy with ⟨req', hreq, -⟩ | ⟨req', hreq, -⟩ | ⟨connfd, -, he⟩
    · simp [hlast] at hreq
    · rw [hlast] at hreq; cases hreq
    · rw [he]
      refine .ended (hn.below i hbusy) fun j hj hji => ?_
      by_cases hne : j = i
      · subst j
        rw [Function.update_self] at hj
        cases hj
      · rw [Function.update_of_ne (by simpa using hne)] at hj
        exact hne (hn.distinct j i hj hbusy hji)
  · rw [life_other (by simpa [lifeOf] using hk)]
    exact h.other hk

def Lives (s : System n) : Prop :=
  ∀ k, Life s.look s.enqueued s.dequeued s.serving s.accepts k (life k s.trace)

theorem lives_change (hn : Numbers s.look s.enqueued s.dequeued s.serving s.accepts)
    (hds : s.dequeued <+: s.enqueued) (hds' : s'.dequeued <+: s'.enqueued) (h : Lives s)
    (hc : Change s s') : Lives s' := by
  have frame {τ : QueueState n} {t : Tid n} {v v' : View} {es ds : List Request}
      (hm : Moves s τ t v v' es ds) {serving : Fin n → Nat} {accepts : Nat} {tr : List (Event n)}
      (hl : ∀ k, Life (Function.update s.look t v') (s.enqueued ++ es) (s.dequeued ++ ds) serving
        accepts k (life k tr)) (k : Nat) :
      Life (fun u => view (τ.place u)) (QueueRefinement.enqueued τ.data.trace)
        (QueueRefinement.dequeued τ.data.trace) serving accepts k (life k tr) := by
    rw [hm.enqueued, hm.dequeued, funext hm.look]
    exact hl k
  have silent {e : Event n} (he : lifeOf e = none) (k : Nat) :
      Life s.look s.enqueued s.dequeued s.serving s.accepts k (life k (s.trace ++ [e])) := by
    rw [life_other (by rw [he]; nofun)]
    exact h k
  cases hc with
  | quiet hm =>
      refine frame hm fun k => ?_
      rw [List.append_nil, List.append_nil, ← hm.old, Function.update_eq_self]
      exact h k
  | accepted hm closed =>
      refine frame hm fun k => ?_
      rw [List.append_nil, List.append_nil]
      exact (h k).accepted hn hds hm.old _
  | enqueued hm =>
      refine frame hm fun k => ?_
      rw [List.append_nil]
      exact (h k).enqueued hn hds hm.old
  | @dequeued τ i req hm =>
      have hnext := next_request hm hds'
      refine frame hm fun k => ?_
      rw [List.append_nil]
      exact (h k).dequeued hn hds hm.old hnext
  | called hm =>
      refine frame hm fun k => ?_
      rw [List.append_nil, List.append_nil]
      exact (h k).called hn hds hm.old
  | returned hm =>
      refine frame hm fun k => ?_
      rw [List.append_nil, List.append_nil]
      exact (h k).returned hn hds hm.old
  | closed hm =>
      refine frame hm fun k => ?_
      rw [List.append_nil, List.append_nil]
      exact (h k).closed hn hds hm.old
  | finished hm =>
      refine frame hm fun k => ?_
      rw [List.append_nil, List.append_nil]
      exact (h k).finished hn hds hm.old
  | reads | got | logged | wrote | forked | output | duplicated | spawned | shut | ended =>
      exact silent rfl
  | _ => exact h

theorem lives_reachable (hcap : 1 ≤ cap) (h : Reachable (start n junk cap byte listenfd) s) :
    Lives s := by
  refine h.changes (I := Lives) (fun k => .unseen (Nat.zero_le _)) fun s s' hr hr' hl hc => ?_
  exact lives_change (numbers_reachable hcap hr) (dequeued_of_enqueued hcap hr) (dequeued_of_enqueued hcap hr')
    hl hc

def unfinished (d : RequestQueue.Shared n) : Int :=
  (popped (ops d.trace)).length - (ops d.trace).countP isFinish

theorem goes_unfinished {t : Tid n} {p q : RequestQueue.Pc} {d d' : RequestQueue.Shared n}
    (h : (RequestQueue.code anyOutcome t p).Goes d q d') :
    unfinished d' = unfinished d + (if busy (view q) then 1 else 0) -
      (if busy (view p) then 1 else 0) := by
  cases RequestQueue.goes_edge h with
  | enqueued | dequeued | returned | closed | finished =>
      simp only [unfinished, ops_snoc, popped, List.filterMap_append, List.countP_append]
      simp [ops, isFinish, busy, view]
      try omega
  | _ => simp [unfinished, busy, view]

theorem unfinished_eq {σ : QueueState n}
    (h : Monitor.Reachable (queueMachine n) (RequestQueue.start n junk cap) σ) :
    unfinished σ.data = countIn (fun p => busy (view p)) σ.place := by
  refine h.counter (fun p => busy (view p)) unfinished ?_ fun t p d q d' hg => goes_unfinished hg
  rw [countIn_eq_zero.2 fun t => by cases t <;> rfl]
  rfl

/-- The requests that wait in the ring. -/
def pending (s : System n) : List Request := s.enqueued.drop s.dequeued.length

def served (s : System n) : List Request :=
  (List.finRange n).filterMap fun i => inService (s.look (.worker i))

def connections (s : System n) : List Int :=
  (held (s.look .main)).toList ++ (pending s).map (·.connfd) ++ (served s).map (·.connfd)

def numbers (s : System n) : List Nat :=
  (held (s.look .main)).toList.map (fun _ => s.enqueued.length) ++
    List.range' s.dequeued.length (pending s).length ++
      (List.finRange n).filterMap fun i => (inService (s.look (.worker i))).map fun _ => s.serving i

theorem room (hcap : 1 ≤ cap) (h : Reachable (start n junk cap byte listenfd) s) :
    (pending s).length + (served s).length ≤ cap := by
  have hqueue := (machines_reachable h).queue
  obtain ⟨q, hq⟩ := QueueRefinement.after_reachable hcap hqueue
  have he := QueueRefinement.enqueued_eq hq
  have hroom := q.room
  have hpending : pending s = q.pending := by
    rw [pending, System.enqueued, he]
    exact List.drop_left
  have hcount : (q.inService : Int) = countIn (fun p => busy (view p)) s.queue.place := by
    have hin := hq.inService_eq
    rw [← unfinished_eq hqueue, unfinished, ← hin]
    push_cast
    omega
  have hserved : (served s).length ≤ countIn (fun p => busy (view p)) s.queue.place := by
    rw [served, List.length_filterMap_eq_countP, List.countP_eq_length_filter,
      ← List.toFinset_card_of_nodup ((List.nodup_finRange n).filter _), countIn]
    refine Finset.card_le_card_of_injOn Tid.worker (fun i hi => ?_) fun i _ j _ hij => Tid.worker.inj hij
    obtain ⟨req, hreq⟩ := Option.isSome_iff_exists.1 (by simpa using hi)
    have hbusy : busy (view (s.queue.place (.worker i))) = true := busy_of_inService hreq
    simpa using hbusy
  rw [hpending]
  omega

theorem numbers_nodup (hn : Numbers s.look s.enqueued s.dequeued s.serving s.accepts)
    (hds : s.dequeued <+: s.enqueued) : (numbers s).Nodup := by
  have hle := hds.length_le
  have hlen : (pending s).length = s.enqueued.length - s.dequeued.length := List.length_drop
  have hserved {k : Nat} (hk : k ∈ (List.finRange n).filterMap fun i =>
      (inService (s.look (.worker i))).map fun _ => s.serving i) : k < s.dequeued.length := by
    obtain ⟨i, -, hi⟩ := List.mem_filterMap.1 hk
    obtain ⟨req, hreq, rfl⟩ := Option.map_eq_some_iff.1 hi
    exact hn.below i (busy_of_inService hreq)
  rw [numbers, List.nodup_append, List.nodup_append]
  refine ⟨⟨?_, List.nodup_range', ?_⟩, ?_, ?_⟩
  · cases held (s.look .main) <;> simp
  · rintro a ha b hb rfl
    obtain ⟨c, -, rfl⟩ := List.mem_map.1 ha
    have := List.mem_range'_1.1 hb
    omega
  · refine (List.nodup_finRange n).filterMap fun i j k hi hj => ?_
    obtain ⟨req, hreq, rfl⟩ := Option.map_eq_some_iff.1 hi
    obtain ⟨req', hreq', heq⟩ := Option.map_eq_some_iff.1 hj
    exact hn.distinct i j (busy_of_inService hreq) (busy_of_inService hreq') heq.symm
  · rintro a ha b hb rfl
    have hb := hserved hb
    rcases List.mem_append.1 ha with ha | ha
    · obtain ⟨c, -, rfl⟩ := List.mem_map.1 ha
      omega
    · have := List.mem_range'_1.1 ha
      omega

theorem connections_fds (hn : Numbers s.look s.enqueued s.dequeued s.serving s.accepts)
    (ht : Tables s) :
    (connections s).map s.fds = (numbers s).map fun k => some (.connection k) := by
  have stands {k : Nat} {fd : Int} (h : SystemHas s k fd) : s.fds fd = some (.connection k) :=
    (ht.conns fd k).2 h
  simp only [connections, numbers, List.map_append]
  congr 1
  · congr 1
    · cases hheld : held (s.look .main) with
      | none => rfl
      | some connfd =>
          have haccepts := hn.accepts
          rw [hheld] at haccepts
          simpa using stands (.inl ⟨hheld, haccepts.symm⟩)
    · rw [List.map_map]
      refine List.ext_getElem (by simp) fun j hj hj' => ?_
      rw [List.length_map] at hj
      rw [List.getElem_map, List.getElem_map, List.getElem_range', Nat.one_mul]
      refine stands (.inr (.inl ⟨Nat.le_add_right _ _, (pending s)[j], ?_, rfl⟩))
      rw [← List.getElem?_drop]
      exact List.getElem?_eq_getElem hj
  · rw [served, List.map_filterMap, List.map_filterMap, List.map_filterMap]
    refine List.filterMap_congr fun i _ => ?_
    cases hreq : inService (s.look (.worker i)) with
    | none => rfl
    | some req => exact congrArg some (stands (.inr (.inr ⟨i, req, hreq, rfl, rfl⟩)))

/-- The accounts of the connections, with room for `cap` requests. -/
structure Accounts (cap : Nat) (s : System n) : Prop where
  /-- A connection that was accepted is enqueued, taken by a worker, answered, closed and
  finished, in this order, and nothing happens to it twice. -/
  lives : ∀ k < s.accepts, ∃ connfd i, life k s.trace <+: story k connfd i
  /-- It is open or about to be finished until its life is over. -/
  kept : ∀ k < s.accepts, (∃ connfd i, life k s.trace = story k connfd i) ∨
    (∃ fd, s.fds fd = some (.connection k)) ∨
      ∃ i, s.look (.worker i) = .finishing ∧ s.serving i = k
  /-- Its life is over where no thread can go on, other than by accepting a connection. -/
  drained : ¬ Proceeds anyOutcome s.queue → ∀ k < s.accepts, ∃ connfd i,
    life k s.trace = story k connfd i
  /-- While the mutex is free, the requests that wait are those in the ring. -/
  ring : s.queue.owner = none → pending s = RingBuffer.contents s.queue.data.queue.buffer
    s.queue.data.queue.capacity s.queue.data.queue.front s.queue.data.queue.dequeueingSize.toNat
  conns : ∀ fd, (∃ k, s.fds fd = some (.connection k)) ↔ fd ∈ connections s
  distinct : (connections s).Nodup
  bound : (connections s).length ≤ cap + 1

theorem mem_connections {fd : Int} (h : SystemHas s k fd) :
    fd ∈ connections s := by
  rw [connections, List.mem_append, List.mem_append]
  rcases h with ⟨hheld, -⟩ | ⟨hle, req, hreq, rfl⟩ | ⟨i, req, hreq, -, rfl⟩
  · exact .inl (.inl (by rw [hheld]; simp))
  · refine .inl (.inr (List.mem_map_of_mem (List.mem_of_getElem? (i := k - s.dequeued.length) ?_)))
    rwa [pending, List.getElem?_drop, Nat.add_sub_cancel' hle]
  · exact .inr (List.mem_map_of_mem (List.mem_filterMap.2 ⟨i, List.mem_finRange i, hreq⟩))

theorem life_prefixes (hn : 1 ≤ n) (h : Life look es ds serving accepts k evs) (hk : k < accepts) :
    ∃ connfd i, evs <+: story k connfd i := by
  have i : Fin n := ⟨0, hn⟩
  cases h with
  | unseen new => omega
  | held => exact ⟨_, i, _, rfl⟩
  | pending => exact ⟨_, i, _, rfl⟩
  | served | closing | finishing => exact ⟨_, _, _, rfl⟩
  | ended => exact ⟨_, _, List.prefix_rfl⟩

theorem at_rest (hcap : 1 ≤ cap) (hn : 1 ≤ n) (h : Reachable (start n junk cap byte listenfd) s)
    (hrest : ¬ Proceeds anyOutcome s.queue) :
    s.look .main = .accepting ∧ (∀ i, s.look (.worker i) = .free) ∧
      s.enqueued.length = s.dequeued.length := by
  have hqueue := (machines_reachable h).queue
  have hret : Returns anyOutcome := fun _ _ _ stats => ⟨.returned stats, stats, rfl⟩
  have hidle := (QueueDrain.proceeds_or_idle hcap hn hret hqueue).resolve_left hrest
  refine ⟨by rw [System.look, hidle.main]; rfl, fun i => ?_, ?_⟩
  · rcases sleeper_place hqueue (hidle.workers i) with ⟨hc, -⟩ | ⟨-, stats, hp⟩
    · cases hc
    · rw [System.look, State.place, hp]; rfl
  · have hfree : s.queue.owner = none := by
      cases ho : s.queue.owner with
      | none => rfl
      | some t => exact absurd (moves_of_owner hqueue hret ho) hrest
    have hnone : ¬ 0 < s.queue.data.queue.dequeueingSize := fun hd =>
      hrest (moves_of_pending hcap hn hqueue hret hfree hd)
    obtain ⟨waiting, he, hd⟩ := pending_eq hcap hqueue
    rw [System.enqueued, he, List.length_append, System.dequeued]
    omega

/-- Every accepted connection is enqueued, handed to one worker, closed and finished
once. The open connections are the one that the main thread holds, the pending ones and
those in service, with distinct descriptors. -/
theorem connections_accounted (hcap : 1 ≤ cap) (hn : 1 ≤ n)
    (h : Reachable (start n junk cap byte listenfd) s) : Accounts cap s := by
  have hnum := numbers_reachable hcap h
  have htables := tables_reachable hcap h
  have hlives := lives_reachable hcap h
  have hds := dequeued_of_enqueued hcap h
  have hfds := connections_fds hnum htables
  refine ⟨fun k hk => life_prefixes hn (hlives k) hk, fun k hk => ?_, fun hrest k hk => ?_,
    fun hmutex => ?_, fun fd => ⟨?_, fun hfd => ?_⟩, ?_, ?_⟩
  · have hlife := hlives k
    generalize life k s.trace = evs at hlife
    cases hlife with
    | unseen new => omega
    | held main last => exact .inr (.inl ⟨_, (htables.conns _ _).2 (.inl ⟨main, last⟩)⟩)
    | pending waits entry =>
        exact .inr (.inl ⟨_, (htables.conns _ _).2 (.inr (.inl ⟨waits, _, entry, rfl⟩))⟩)
    | @served i req worker number =>
        have hreq : inService (s.look (.worker i)) = some req := by
          rcases worker with hw | hw <;> rw [hw] <;> rfl
        exact .inr (.inl ⟨_, (htables.conns _ _).2 (.inr (.inr ⟨i, req, hreq, number, rfl⟩))⟩)
    | @closing i req worker number =>
        have hreq : inService (s.look (.worker i)) = some req := by rw [worker]; rfl
        exact .inr (.inl ⟨_, (htables.conns _ _).2 (.inr (.inr ⟨i, req, hreq, number, rfl⟩))⟩)
    | finishing worker number => exact .inr (.inr ⟨_, worker, number⟩)
    | ended => exact .inl ⟨_, _, rfl⟩
  · obtain ⟨hmain, hworkers, hlen⟩ := at_rest hcap hn h hrest
    have hlife := hlives k
    generalize life k s.trace = evs at hlife
    cases hlife with
    | unseen new => omega
    | held main last => rw [hmain] at main; cases main
    | pending waits entry => have := (List.getElem?_eq_some_iff.1 entry).1; omega
    | served worker number => simp [hworkers] at worker
    | closing worker number | finishing worker number => rw [hworkers] at worker; cases worker
    | ended => exact ⟨_, _, rfl⟩
  · rw [pending, System.enqueued, QueueRefinement.contents_free hcap (machines_reachable h).queue hmutex]
    exact List.drop_left
  · rintro ⟨k, hk⟩
    exact mem_connections ((htables.conns fd k).1 hk)
  · have hmem := List.mem_map_of_mem (f := s.fds) hfd
    rw [hfds] at hmem
    obtain ⟨k, -, hk⟩ := List.mem_map.1 hmem
    exact ⟨k, hk.symm⟩
  · refine List.Nodup.of_map s.fds ?_
    rw [hfds]
    exact (numbers_nodup hnum hds).map fun a b hab => by simpa using hab
  · have hroom := room hcap h
    have hheld : (held (s.look .main)).toList.length ≤ 1 := by
      cases held (s.look .main) <;> simp
    rw [connections, List.length_append, List.length_append, List.length_map, List.length_map]
    omega

def reuse : List (Move 2) :=
  arrive 4 ++ take 0 .empty ++ .call 0 (.line 0 [] ⟨[]⟩) :: leave 0 ⟨1, 0, 0, 0, 0⟩ ++ arrive 4 ++
    take 1 .empty

theorem reuse_ends : ((System.replay reuse (start 2 (fun _ => ⟨0, 0, 0⟩) 2 (fun _ => 0) 3)).any
    fun s => decide (s.accepts = 2 ∧ connections s = [4])) = true := by
  decide +kernel

theorem connections_accounted_reuse : ∃ s : System 2,
    Reachable (start 2 (fun _ => ⟨0, 0, 0⟩) 2 (fun _ => 0) 3) s ∧ s.accepts = 2 ∧
      connections s = [4] ∧ Accounts 2 s := by
  obtain ⟨s, h, hend⟩ := replay_ends reuse_ends
  obtain ⟨haccepts, hconnections⟩ := of_decide_eq_true hend
  exact ⟨s, h, haccepts, hconnections, connections_accounted (by decide) (by decide) h⟩

end WebServer.Accounting
