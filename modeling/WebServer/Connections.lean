import WebServer.QueueDrain
import WebServer.ServerSteps

namespace WebServer.Connections

open Monitor Message RequestCalls Sessions Server
open QueueDrain (pending_eq)
open RequestQueue (QueueState Tid Request)

variable {n cap : Nat} {junk : Nat → Request} {byte : Nat → ServerLog.Byte} {listenfd : Int}
  {s s' : System n} {look : Tid n → View} {es ds : List Request} {serving : Fin n → Nat}
  {accepts : Nat} {i : Fin n}

def held : View → Option Int
  | .holding connfd => some connfd
  | _ => none

def inService : View → Option Request
  | .taken req | .handling req | .closing req => some req
  | _ => none

def busy : View → Bool
  | .taken _ | .handling _ | .closing _ | .finishing => true
  | _ => false

/-- Connections are numbered in the order in which they are accepted, enqueued and
dequeued. -/
structure Numbers (look : Tid n → View) (es ds : List Request) (serving : Fin n → Nat)
    (accepts : Nat) : Prop where
  accepts : accepts = es.length + if (held (look .main)).isSome then 1 else 0
  taken : ∀ i req, inService (look (.worker i)) = some req → es[serving i]? = some req
  below : ∀ i, busy (look (.worker i)) = true → serving i < ds.length
  distinct : ∀ i j, busy (look (.worker i)) = true → busy (look (.worker j)) = true →
    serving i = serving j → i = j

theorem busy_of_inService {v : View} {req : Request} (h : inService v = some req) : busy v = true := by
  cases v with
  | taken | handling | closing => rfl
  | _ => cases h

theorem next_request {τ : QueueState n} {req : Request}
    (hm : Moves s τ (.worker i) .free (.taken req) [] [req])
    (hds : QueueRefinement.dequeued τ.data.trace <+: QueueRefinement.enqueued τ.data.trace) :
    s.enqueued[s.dequeued.length]? = some req := by
  rw [hm.enqueued, hm.dequeued, List.append_nil] at hds
  obtain ⟨rest, hrest⟩ := hds
  rw [← hrest, List.append_assoc]
  simp

theorem Numbers.goes (h : Numbers look es ds serving accepts) {v : View}
    (hreq : ∀ req, inService v = some req → inService (look (.worker i)) = some req)
    (hbusy : busy v = true → busy (look (.worker i)) = true) :
    Numbers (Function.update look (.worker i) v) es ds serving accepts := by
  have old {j : Fin n} {w : View} (hw : w = Function.update look (.worker i) v (.worker j)) :
      (∀ req, inService w = some req → inService (look (.worker j)) = some req) ∧
        (busy w = true → busy (look (.worker j)) = true) := by
    by_cases hj : j = i
    · subst j
      rw [Function.update_self] at hw
      subst w
      exact ⟨hreq, hbusy⟩
    · rw [Function.update_of_ne (by simpa using hj)] at hw
      subst w
      exact ⟨fun _ h => h, fun h => h⟩
  refine ⟨?_, fun j req hj => h.taken j req ((old rfl).1 req hj),
    fun j hj => h.below j ((old rfl).2 hj),
    fun j k hj hk => h.distinct j k ((old rfl).2 hj) ((old rfl).2 hk)⟩
  rw [Function.update_of_ne (by simp)]
  exact h.accepts

theorem numbers_change (hds : s'.dequeued <+: s'.enqueued)
    (h : Numbers s.look s.enqueued s.dequeued s.serving s.accepts) (hc : Change s s') :
    Numbers s'.look s'.enqueued s'.dequeued s'.serving s'.accepts := by
  have frame {τ : QueueState n} {t : Tid n} {v v' : View} {es ds : List Request}
      (hm : Moves s τ t v v' es ds) (serving : Fin n → Nat) (accepts : Nat)
      (hn : Numbers (Function.update s.look t v') (s.enqueued ++ es) (s.dequeued ++ ds)
        serving accepts) :
      Numbers (fun u => view (τ.place u)) (QueueRefinement.enqueued τ.data.trace)
        (QueueRefinement.dequeued τ.data.trace) serving accepts := by
    rwa [hm.enqueued, hm.dequeued, funext hm.look]
  have worker {τ : QueueState n} {i : Fin n} {v v' : View} (hm : Moves s τ (.worker i) v v' [] [])
      (hreq : ∀ req, inService v' = some req → inService v = some req)
      (hbusy : busy v' = true → busy v = true) :
      Numbers (fun u => view (τ.place u)) (QueueRefinement.enqueued τ.data.trace)
        (QueueRefinement.dequeued τ.data.trace) s.serving s.accepts := by
    apply frame hm
    rw [List.append_nil, List.append_nil]
    exact h.goes (by rwa [hm.old]) (by rwa [hm.old])
  cases hc with
  | quiet hm =>
      apply frame hm
      rwa [List.append_nil, List.append_nil, ← hm.old, Function.update_eq_self]
  | accepted hm closed =>
      apply frame hm
      have haccepts := h.accepts
      rw [hm.old] at haccepts
      refine ⟨?_, ?_, ?_, ?_⟩ <;> simp only [List.append_nil]
      · rw [Function.update_self, haccepts]; rfl
      · intro i req hi
        rw [Function.update_of_ne (by simp)] at hi
        exact h.taken i req hi
      · intro i hi
        rw [Function.update_of_ne (by simp)] at hi
        exact h.below i hi
      · intro i j hi hj
        rw [Function.update_of_ne (by simp)] at hi hj
        exact h.distinct i j hi hj
  | enqueued hm =>
      apply frame hm
      have haccepts := h.accepts
      rw [hm.old] at haccepts
      have old (i : Fin n) : Function.update s.look .main .accepting (.worker i) = s.look (.worker i) :=
        Function.update_of_ne (by simp) _ _
      refine ⟨?_, fun i req' hi => ?_, fun i hi => ?_, fun i j hi hj => ?_⟩
      · rw [Function.update_self, haccepts, List.length_append]; rfl
      · rw [old] at hi
        have hget := h.taken i req' hi
        exact (List.getElem?_append_left (List.getElem?_eq_some_iff.1 hget).1).trans hget
      · rw [old] at hi
        rw [List.append_nil]
        exact h.below i hi
      · rw [old] at hi hj
        exact h.distinct i j hi hj
  | @dequeued τ i req hm =>
      have hnext := next_request hm hds
      refine frame hm (Function.update s.serving i s.dequeued.length) _ ?_
      have own : Function.update s.look (.worker i) (.taken req) (.worker i) = .taken req :=
        Function.update_self _ _ _
      have other {j : Fin n} (hj : j ≠ i) :
          Function.update s.look (.worker i) (.taken req) (.worker j) = s.look (.worker j) ∧
            Function.update s.serving i s.dequeued.length j = s.serving j :=
        ⟨Function.update_of_ne (by simpa using hj) _ _, Function.update_of_ne hj _ _⟩
      refine ⟨?_, fun j req' hj => ?_, fun j hj => ?_, fun j k hj hk heq => ?_⟩
      · rw [Function.update_of_ne (by simp), List.append_nil]
        exact h.accepts
      · rw [List.append_nil]
        by_cases hji : j = i
        · subst j
          rw [own] at hj
          obtain rfl := Option.some.inj hj
          rwa [Function.update_self]
        · rw [(other hji).1] at hj
          rw [(other hji).2]
          exact h.taken j req' hj
      · rw [List.length_append, List.length_singleton]
        by_cases hji : j = i
        · subst j
          rw [Function.update_self]
          exact Nat.lt_succ_self _
        · rw [(other hji).1] at hj
          rw [(other hji).2]
          exact Nat.lt_succ_of_lt (h.below j hj)
      · by_cases hji : j = i <;> by_cases hki : k = i
        · rw [hji, hki]
        · subst j
          rw [(other hki).1] at hk
          rw [Function.update_self, (other hki).2] at heq
          exact absurd heq (h.below k hk).ne'
        · subst k
          rw [(other hji).1] at hj
          rw [Function.update_self, (other hji).2] at heq
          exact absurd heq (h.below j hj).ne
        · rw [(other hji).1] at hj
          rw [(other hki).1] at hk
          rw [(other hji).2, (other hki).2] at heq
          exact h.distinct j k hj hk heq
  | called hm follows => exact worker hm (fun _ h => h) fun h => h
  | returned hm rest => exact worker hm (fun _ h => h) fun h => h
  | closed hm => exact worker hm nofun fun h => h
  | finished hm => exact worker hm nofun nofun
  | _ => exact h

theorem dequeued_of_enqueued (hcap : 1 ≤ cap) (h : Reachable (start n junk cap byte listenfd) s) :
    s.dequeued <+: s.enqueued := by
  obtain ⟨waiting, he, -⟩ := pending_eq hcap (machines_reachable h).queue
  exact ⟨waiting, he.symm⟩

theorem numbers_reachable (hcap : 1 ≤ cap) (h : Reachable (start n junk cap byte listenfd) s) :
    Numbers s.look s.enqueued s.dequeued s.serving s.accepts := by
  refine h.changes (I := fun s => Numbers s.look s.enqueued s.dequeued s.serving s.accepts)
    ⟨rfl, nofun, nofun, nofun⟩ fun _ s' _ hr' hi hc => numbers_change ?_ hi hc
  exact dequeued_of_enqueued hcap hr'

/-- Connection `k` has the descriptor `fd`: the main thread holds it, it is pending, or a
worker has it in service. -/
def Has (look : Tid n → View) (es ds : List Request) (serving : Fin n → Nat) (accepts k : Nat)
    (fd : Int) : Prop :=
  (held (look .main) = some fd ∧ k + 1 = accepts) ∨
    (ds.length ≤ k ∧ ∃ req, es[k]? = some req ∧ req.connfd = fd) ∨
    ∃ i req, inService (look (.worker i)) = some req ∧ serving i = k ∧ req.connfd = fd

abbrev SystemHas (s : System n) : Nat → Int → Prop :=
  Has s.look s.enqueued s.dequeued s.serving s.accepts

variable {k : Nat} {fd : Int} {req : Request}

theorem has_accepted (hmain : held (look .main) = none) {connfd : Int} :
    Has (Function.update look .main (.holding connfd)) es ds serving (accepts + 1) k fd ↔
      (connfd = fd ∧ k = accepts) ∨ Has look es ds serving accepts k fd := by
  have hnew : held (.holding connfd) = some connfd := rfl
  simp only [Has, Function.update_self, hnew, hmain]
  simp

theorem has_enqueued (hn : Numbers look es ds serving accepts) (hds : ds <+: es)
    (hmain : held (look .main) = some req.connfd) :
    Has (Function.update look .main .accepting) (es ++ [req]) ds serving accepts k fd ↔
      Has look es ds serving accepts k fd := by
  have haccepts : accepts = es.length + 1 := by rw [hn.accepts, hmain]; rfl
  have hnone : held .accepting = none := rfl
  have hpending : (ds.length ≤ k ∧ ∃ r, (es ++ [req])[k]? = some r ∧ r.connfd = fd) ↔
      (req.connfd = fd ∧ k + 1 = accepts) ∨ (ds.length ≤ k ∧ ∃ r, es[k]? = some r ∧ r.connfd = fd) := by
    rcases Nat.lt_trichotomy k es.length with hk | hk | hk
    · rw [List.getElem?_append_left hk]
      have hne : k + 1 ≠ accepts := by omega
      simp [hne]
    · have hle : ds.length ≤ k := hk ▸ hds.length_le
      have heq : k + 1 = accepts := by omega
      have hlast : (es ++ [req])[k]? = some req := by rw [hk]; simp
      have hnil : es[k]? = none := by simp [hk]
      rw [hlast, hnil]
      simp [heq, hle]
    · have hne : k + 1 ≠ accepts := by omega
      rw [List.getElem?_eq_none (by simp; omega), List.getElem?_eq_none (by omega)]
      simp [hne]
  simp only [Has, Function.update_self, hnone, hpending, hmain]
  simp [or_assoc]

theorem has_goes {v : View} (hv : inService v = inService (look (.worker i))) :
    Has (Function.update look (.worker i) v) es ds serving accepts k fd ↔
      Has look es ds serving accepts k fd := by
  have hlook (j : Fin n) : inService (Function.update look (.worker i) v (.worker j)) =
      inService (look (.worker j)) := by
    by_cases hj : j = i
    · subst j; rw [Function.update_self, hv]
    · rw [Function.update_of_ne (by simpa using hj)]
  simp [Has, hlook]

theorem has_dequeued (hfree : inService (look (.worker i)) = none)
    (hnext : es[ds.length]? = some req) :
    Has (Function.update look (.worker i) (.taken req)) es (ds ++ [req])
        (Function.update serving i ds.length) accepts k fd ↔
      Has look es ds serving accepts k fd := by
  have hserved : (∃ j r, inService (Function.update look (.worker i) (.taken req) (.worker j)) = some r ∧
      Function.update serving i ds.length j = k ∧ r.connfd = fd) ↔
      (ds.length = k ∧ req.connfd = fd) ∨
        ∃ j r, inService (look (.worker j)) = some r ∧ serving j = k ∧ r.connfd = fd := by
    constructor
    · rintro ⟨j, r, hr, hk, hfd⟩
      by_cases hj : j = i
      · subst j
        rw [Function.update_self] at hr hk
        obtain rfl := Option.some.inj hr
        exact .inl ⟨hk, hfd⟩
      · rw [Function.update_of_ne (by simpa using hj)] at hr
        rw [Function.update_of_ne hj] at hk
        exact .inr ⟨j, r, hr, hk, hfd⟩
    · rintro (⟨hk, hfd⟩ | ⟨j, r, hr, hk, hfd⟩)
      · exact ⟨i, req, by rw [Function.update_self]; rfl, by rwa [Function.update_self], hfd⟩
      · have hj : j ≠ i := by
          rintro rfl
          rw [hfree] at hr
          cases hr
        refine ⟨j, r, ?_, ?_, hfd⟩
        · rwa [Function.update_of_ne (by simpa using hj)]
        · rwa [Function.update_of_ne hj]
  have hpending : (ds.length ≤ k ∧ ∃ r, es[k]? = some r ∧ r.connfd = fd) ↔
      (ds.length = k ∧ req.connfd = fd) ∨
        ((ds ++ [req]).length ≤ k ∧ ∃ r, es[k]? = some r ∧ r.connfd = fd) := by
    rw [List.length_append, List.length_singleton]
    constructor
    · rintro ⟨hle, r, hr, hfd⟩
      rcases Nat.eq_or_lt_of_le hle with hk | hlt
      · rw [← hk, hnext] at hr
        obtain rfl := Option.some.inj hr
        exact .inl ⟨hk, hfd⟩
      · exact .inr ⟨hlt, r, hr, hfd⟩
    · rintro (⟨hk, hfd⟩ | ⟨hlt, r, hr, hfd⟩)
      · exact ⟨hk.le, req, by rwa [← hk], hfd⟩
      · exact ⟨by omega, r, hr, hfd⟩
  rw [Has, Has, hserved, hpending, Function.update_of_ne (by simp), ← or_assoc (a := _ ≤ k ∧ _)]
  exact or_congr_right (or_congr_left or_comm)

theorem has_closed (hn : Numbers look es ds serving accepts) (hds : ds <+: es)
    (hreq : inService (look (.worker i)) = some req) :
    Has (Function.update look (.worker i) .finishing) es ds serving accepts k fd ↔
      Has look es ds serving accepts k fd ∧ k ≠ serving i := by
  have hbusy := busy_of_inService hreq
  have hlt := hn.below i hbusy
  have hle := hds.length_le
  have hother {j : Fin n} (hj : j ≠ i) :
      Function.update look (.worker i) .finishing (.worker j) = look (.worker j) :=
    Function.update_of_ne (by simpa using hj) _ _
  constructor
  · rintro (⟨hheld, hk⟩ | ⟨hk, hpend⟩ | ⟨j, r, hr, hk, hfd⟩)
    · rw [Function.update_of_ne (by simp)] at hheld
      have haccepts := hn.accepts
      rw [hheld, Option.isSome_some, if_pos rfl] at haccepts
      exact ⟨.inl ⟨hheld, hk⟩, by omega⟩
    · exact ⟨.inr (.inl ⟨hk, hpend⟩), by omega⟩
    · by_cases hj : j = i
      · subst j
        rw [Function.update_self] at hr
        cases hr
      · rw [hother hj] at hr
        refine ⟨.inr (.inr ⟨j, r, hr, hk, hfd⟩), ?_⟩
        rintro rfl
        exact hj (hn.distinct j i (busy_of_inService hr) hbusy hk)
  · rintro ⟨⟨hheld, hk⟩ | hpend | ⟨j, r, hr, hk, hfd⟩, hne⟩
    · exact .inl ⟨by rwa [Function.update_of_ne (by simp)], hk⟩
    · exact .inr (.inl hpend)
    · have hj : j ≠ i := by
        rintro rfl
        exact hne hk.symm
      exact .inr (.inr ⟨j, r, by rwa [hother hj], hk, hfd⟩)

theorem has_unique (hn : Numbers look es ds serving accepts) (hds : ds <+: es) {fd' : Int}
    (h : Has look es ds serving accepts k fd) (h' : Has look es ds serving accepts k fd') :
    fd = fd' := by
  have hle := hds.length_le
  have haccepts := hn.accepts
  have holds {c : Int} (hheld : held (look .main) = some c) : accepts = es.length + 1 := by
    rw [haccepts, hheld]; rfl
  have pends {r : Request} (hr : es[k]? = some r) : k < es.length := (List.getElem?_eq_some_iff.1 hr).1
  have serves {j : Fin n} {r : Request} (hr : inService (look (.worker j)) = some r) :
      serving j < ds.length := hn.below j (busy_of_inService hr)
  rcases h with ⟨hheld, hk⟩ | ⟨hk, r, hr, rfl⟩ | ⟨i, r, hr, rfl, rfl⟩
  · have hlast := holds hheld
    rcases h' with ⟨hheld', -⟩ | ⟨-, r', hr', -⟩ | ⟨j, r', hr', hk', -⟩
    · exact Option.some.inj (hheld.symm.trans hheld')
    · have := pends hr'; omega
    · have := serves hr'; omega
  · have hlt := pends hr
    rcases h' with ⟨hheld', hk'⟩ | ⟨-, r', hr', rfl⟩ | ⟨j, r', hr', hk', -⟩
    · have := holds hheld'; omega
    · rw [Option.some.inj (hr.symm.trans hr')]
    · have := serves hr'; omega
  · have hlt := serves hr
    rcases h' with ⟨hheld', hk'⟩ | ⟨hk', -⟩ | ⟨j, r', hr', hk', rfl⟩
    · have := holds hheld'; omega
    · omega
    · obtain rfl := hn.distinct j i (busy_of_inService hr') (busy_of_inService hr) hk'
      rw [Option.some.inj (hr.symm.trans hr')]

def Conns (fds : Descriptors n) (has : Nat → Int → Prop) : Prop :=
  ∀ fd k, fds fd = some (.connection k) ↔ has k fd

def Files (rest : Fin n → Option (Calls RequestQueue.ThreadsStats)) (session : Fin n → Session)
    (fds : Descriptors n) : Prop :=
  ∀ i, (rest i).isSome → ∀ fd, (session i).file = some fd → fds fd = some (.file i)

structure Tables (s : System n) : Prop where
  conns : Conns s.fds (SystemHas s)
  files : Files s.rest s.session s.fds
  stdout : s.fds 1 = some .other

variable {fds : Descriptors n} {rest : Fin n → Option (Calls RequestQueue.ThreadsStats)}
  {session : Fin n → Session} {has : Nat → Int → Prop} {ψ : Session}

theorem Conns.served (h : Conns s.fds (SystemHas s)) (hreq : inService (s.look (.worker i)) = some req) :
    s.fds req.connfd = some (.connection (s.serving i)) :=
  (h _ _).2 (.inr (.inr ⟨i, req, hreq, rfl, rfl⟩))

theorem Conns.congr (h : Conns fds has) {has' : Nat → Int → Prop}
    (heq : ∀ k fd, has' k fd ↔ has k fd) : Conns fds has' :=
  fun fd k => (h fd k).trans (heq k fd).symm

theorem Conns.accept (h : Conns fds has) {connfd : Int} (closed : fds connfd = none) (a : Nat) :
    Conns (Function.update fds connfd (some (.connection a)))
      fun k fd => (connfd = fd ∧ k = a) ∨ has k fd := by
  intro fd k
  beta_reduce
  rw [← h fd k]
  by_cases hfd : fd = connfd
  · subst fd
    rw [Function.update_self, closed]
    simp [eq_comm]
  · rw [Function.update_of_ne hfd]
    simp [Ne.symm hfd]

theorem Conns.remove (h : Conns fds has) {connfd : Int} {a : Nat}
    (hconn : fds connfd = some (.connection a)) (one : ∀ fd, has a fd → fd = connfd) :
    Conns (Function.update fds connfd none) fun k fd => has k fd ∧ k ≠ a := by
  intro fd k
  beta_reduce
  rw [← h fd k]
  by_cases hfd : fd = connfd
  · subst fd
    rw [Function.update_self, hconn]
    simp [eq_comm]
  · rw [Function.update_of_ne hfd]
    refine (and_iff_left_of_imp fun hk => ?_).symm
    rintro rfl
    exact hfd (one fd ((h fd k).1 hk))

theorem Conns.other (h : Conns fds has) {o : Option (Object n)} (hfd : ∀ k, fds fd ≠ some (.connection k))
    (ho : ∀ k, o ≠ some (.connection k)) : Conns (Function.update fds fd o) has := by
  intro fd' k
  rw [← h fd' k]
  by_cases heq : fd' = fd
  · subst fd'
    rw [Function.update_self]
    exact iff_of_false (ho k) (hfd k)
  · rw [Function.update_of_ne heq]

theorem Files.goOn (h : Files rest session fds) (x : Calls RequestQueue.ThreadsStats)
    (hψ : ∀ fd, ψ.file = some fd → fds fd = some (.file i)) :
    Files (Function.update rest i (some x)) (Function.update session i ψ) fds := by
  intro j hj fd hfd
  by_cases hji : j = i
  · subst j
    rw [Function.update_self] at hfd
    exact hψ fd hfd
  · rw [Function.update_of_ne hji] at hj hfd
    exact h j hj fd hfd

theorem Files.leave (h : Files rest session fds) : Files (Function.update rest i none) session fds := by
  intro j hj fd hfd
  by_cases hji : j = i
  · subst j
    rw [Function.update_self] at hj
    cases hj
  · rw [Function.update_of_ne hji] at hj
    exact h j hj fd hfd

theorem Files.update (h : Files rest session fds) {o : Option (Object n)}
    (hfd : ∀ i, fds fd ≠ some (.file i)) : Files rest session (Function.update fds fd o) := by
  intro j hj fd' hfd'
  have hfile := h j hj fd' hfd'
  rw [Function.update_of_ne, hfile]
  rintro rfl
  exact hfd j hfile

theorem Files.close (h : Files rest session fds) (hfile : fds fd = some (.file i))
    {x : Calls RequestQueue.ThreadsStats} :
    Files (Function.update rest i (some x)) (Function.update session i { session i with file := none })
      (Function.update fds fd none) := by
  intro j hj fd' hfd'
  by_cases hji : j = i
  · subst j
    rw [Function.update_self] at hfd'
    cases hfd'
  · rw [Function.update_of_ne hji] at hj hfd'
    have hother := h j hj fd' hfd'
    rw [Function.update_of_ne, hother]
    rintro rfl
    rw [hfile] at hother
    exact hji (by simpa using hother.symm)

theorem files_change (ht : Tables s) (hcalling : Calling s.look s.rest s.session)
    (hc : Change s s') : Files s'.rest s'.session s'.fds := by
  have h := ht.files
  have own {i : Fin n} {x : Calls RequestQueue.ThreadsStats} (hx : s.rest i = some x) (fd : Int)
      (hfd : (s.session i).file = some fd) : s.fds fd = some (.file i) :=
    h i (by rw [hx]; rfl) fd hfd
  cases hc with
  | accepted hm closed => exact h.update (by rw [closed]; nofun)
  | called => exact h.goOn _ nofun
  | returned => exact h.leave
  | @closed τ i req hm =>
      have hserved : inService (s.look (.worker i)) = some req := by rw [hm.old]; rfl
      have hconn := ht.conns.served hserved
      exact h.update (by rw [hconn]; nofun)
  | got hm rest => exact h.goOn _ (own rest)
  | added hm rest => exact h.goOn _ (own rest)
  | answered a look rest same => exact h.goOn _ (by rw [same]; exact own rest)
  | wrote look rest => exact h.goOn _ (own rest)
  | forked look rest => exact h.goOn _ (own rest)
  | @opened i req pathname k fd look rest nonneg closed =>
      refine (h.update (by rw [closed]; nofun)).goOn _ fun fd' hfd' => ?_
      have hopened : Sessions.opened fd = some fd := if_neg (by omega)
      obtain rfl := Option.some.inj (hopened.symm.trans hfd')
      exact Function.update_self _ _ _
  | @fileClosed i req fd k look rest =>
      have hfile : (s.session i).file = some fd := (hcalling i _ rest).2.1
      exact h.close (own rest fd hfile)
  | _ => exact h

theorem conns_change (hn : Numbers s.look s.enqueued s.dequeued s.serving s.accepts)
    (hds : s.dequeued <+: s.enqueued) (hds' : s'.dequeued <+: s'.enqueued) (ht : Tables s)
    (hcalling : Calling s.look s.rest s.session) (hc : Change s s') : Conns s'.fds (SystemHas s') := by
  have h := ht.conns
  have frame {τ : QueueState n} {t : Tid n} {v v' : View} {es ds : List Request}
      (hm : Moves s τ t v v' es ds) {fds : Descriptors n} {serving : Fin n → Nat} {accepts : Nat}
      (hconns : Conns fds (Has (Function.update s.look t v') (s.enqueued ++ es) (s.dequeued ++ ds)
        serving accepts)) :
      Conns fds (Has (fun u => view (τ.place u)) (QueueRefinement.enqueued τ.data.trace)
        (QueueRefinement.dequeued τ.data.trace) serving accepts) := by
    rwa [hm.enqueued, hm.dequeued, funext hm.look]
  have goes {τ : QueueState n} {i : Fin n} {v v' : View} (hm : Moves s τ (.worker i) v v' [] [])
      (hv : inService v' = inService v) :
      Conns s.fds (Has (fun u => view (τ.place u)) (QueueRefinement.enqueued τ.data.trace)
        (QueueRefinement.dequeued τ.data.trace) s.serving s.accepts) := by
    apply frame hm
    rw [List.append_nil, List.append_nil]
    exact h.congr fun k fd => has_goes (by rw [hv, hm.old])
  cases hc with
  | quiet hm =>
      apply frame hm
      rwa [List.append_nil, List.append_nil, ← hm.old, Function.update_eq_self]
  | accepted hm closed =>
      apply frame hm
      rw [List.append_nil, List.append_nil]
      exact (h.accept closed s.accepts).congr fun k fd => has_accepted (by rw [hm.old]; rfl)
  | enqueued hm =>
      apply frame hm
      rw [List.append_nil]
      exact h.congr fun k fd => has_enqueued hn hds (by rw [hm.old]; rfl)
  | @dequeued τ i req hm =>
      have hnext := next_request hm hds'
      apply frame hm
      rw [List.append_nil]
      exact h.congr fun k fd => has_dequeued (by rw [hm.old]; rfl) hnext
  | called hm | returned hm | finished hm => exact goes hm rfl
  | @closed τ i req hm =>
      have hserved : inService (s.look (.worker i)) = some req := by rw [hm.old]; rfl
      have hhas : SystemHas s (s.serving i) req.connfd := .inr (.inr ⟨i, req, hserved, rfl, rfl⟩)
      apply frame hm
      rw [List.append_nil, List.append_nil]
      refine (h.remove ((h _ _).2 hhas) fun fd hfd => has_unique hn hds hfd hhas).congr fun k fd => ?_
      exact has_closed hn hds hserved
  | opened look rest nonneg closed => exact h.other (by rw [closed]; nofun) nofun
  | @fileClosed i req fd k look rest =>
      have hfile := ht.files i (by rw [rest]; rfl) fd (hcalling i _ rest).2.1
      exact h.other (by rw [hfile]; nofun) nofun
  | _ => exact h

theorem stdout_change (ht : Tables s) (hcalling : Calling s.look s.rest s.session)
    (hc : Change s s') : s'.fds 1 = some .other := by
  have h := ht.stdout
  have kept {fd : Int} {o : Option (Object n)} (hfd : s.fds fd ≠ some .other) :
      Function.update s.fds fd o 1 = some .other := by
    rw [Function.update_of_ne, h]
    rintro rfl
    exact hfd h
  cases hc with
  | accepted hm closed | opened look rest nonneg closed => exact kept (by rw [closed]; nofun)
  | @closed τ i req hm =>
      have hserved : inService (s.look (.worker i)) = some req := by rw [hm.old]; rfl
      have hconn := ht.conns.served hserved
      exact kept (by rw [hconn]; nofun)
  | @fileClosed i req fd k look rest =>
      have hfile := ht.files i (by rw [rest]; rfl) fd (hcalling i _ rest).2.1
      exact kept (by rw [hfile]; nofun)
  | _ => exact h

theorem start_tables : Tables (start n junk cap byte listenfd) where
  conns fd k := by
    have hnone : (start n junk cap byte listenfd).fds fd ≠ some (.connection k) := by
      simp only [start]
      split <;> nofun
    refine iff_of_false hnone ?_
    rintro (⟨hheld, -⟩ | ⟨-, req, hreq, -⟩ | ⟨i, req, hreq, -⟩)
    · cases hheld
    · cases hreq
    · cases hreq
  files := nofun
  stdout := rfl

/-- The connections that are open in the server are those that somebody has. -/
theorem tables_reachable (hcap : 1 ≤ cap) (h : Reachable (start n junk cap byte listenfd) s) :
    Tables s := by
  refine h.changes (I := Tables) start_tables fun s s' hr hr' ht hc => ?_
  have hcalling := calling_reachable hr
  exact ⟨conns_change (numbers_reachable hcap hr) (dequeued_of_enqueued hcap hr) (dequeued_of_enqueued hcap hr')
    ht hcalling hc, files_change ht hcalling hc, stdout_change ht hcalling hc⟩

end WebServer.Connections
