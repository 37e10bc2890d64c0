import WebServer.EndOfFile

namespace WebServer.RequestHistory

open Message RequestCalls Sessions Server Connections EndOfFile
open RequestQueue (QueueState Tid ThreadsStats Request)

variable {n cap : Nat} {junk : Nat → Request} {byte : Nat → ServerLog.Byte} {listenfd : Int}
  {s s' : System n} {look : Tid n → View} {es ds : List Request} {serving : Fin n → Nat}
  {accepts k pid : Nat} {i : Fin n} {tr : List (Event n)}
  {rest : Fin n → Option (Calls ThreadsStats)} {session : Fin n → Session}
  {x : Calls ThreadsStats} {ψ ψ' : Session} {children : Nat → Option (Child n)} {child : Child n}
  {e : Event n}

def sentTo (tr : List (Event n)) (k : Nat) : Bytes :=
  tr.flatMap fun
    | .sent k' bytes => if k' = k then bytes else []
    | _ => []

/-- What the answer to request `k` depends on. -/
def about (k : Nat) : Event n → Bool
  | .sent k' _ | .forked k' _ | .got k' _ _ => decide (k' = k)
  | _ => false

theorem sentTo_snoc (tr : List (Event n)) (k k' : Nat) (bytes : Bytes) :
    sentTo (tr ++ [.sent k' bytes]) k = sentTo tr k ++ if k' = k then bytes else [] := by
  simp [sentTo]

theorem sentTo_other (he : about k e = false) : sentTo (tr ++ [e]) k = sentTo tr k := by
  cases e with
  | sent k' bytes => simp [sentTo_snoc, of_decide_eq_false he]
  | _ => simp [sentTo]

/-- A process serves a request that the server has made one for. -/
def Origins (children : Nat → Option (Child n)) (tr : List (Event n)) : Prop :=
  ∀ pid child, children pid = some child → ∃ pid', .forked child.serves pid' ∈ tr

theorem Origins.snoc (h : Origins children tr) (e : Event n) : Origins children (tr ++ [e]) :=
  fun pid child hfound =>
    (h pid child hfound).imp fun _ hpid => List.mem_append_left _ hpid

theorem Origins.update (h : Origins children tr)
    (hchild : ∃ pid', .forked child.serves pid' ∈ tr) :
    Origins (Function.update children pid (some child)) tr := by
  intro pid' child' hfound
  by_cases hpid : pid' = pid
  · subst pid'
    rw [Function.update_self] at hfound
    obtain rfl := Option.some.inj hfound
    exact hchild
  · rw [Function.update_of_ne hpid] at hfound
    exact h pid' child' hfound

theorem origins_change (h : Origins s.children s.trace) (hc : Change s s') :
    Origins s'.children s'.trace := by
  cases hc with
  | accepted | enqueued | dequeued | returned | closed | finished | reads | got | logged | wrote
  | output => exact h.snoc _
  | @forked i req cgiargs filename c look rest =>
      exact (h.snoc _).update ⟨s.forks + 1, by simp⟩
  | @spawned pid child found live | @duplicated pid child oldfd newfd found live
  | @shut pid child fd found live | @ended pid child found live =>
      exact (h.snoc _).update (h.snoc _ pid child found)
  | @signalled pid child stopped found live => exact h.update (h pid child found)
  | _ => exact h

theorem child_origin (h : Reachable (start n junk cap byte listenfd) s)
    (hfound : s.children pid = some child) : ∃ pid', .forked child.serves pid' ∈ s.trace :=
  have horigins : Origins s.children s.trace :=
    h.changes (I := fun s => Origins s.children s.trace) nofun
      fun _ _ _ _ hi hc => origins_change hi hc
  horigins pid child hfound

structure Tells (tr : List (Event n)) (k : Nat) (ψ : Session) : Prop where
  got : ∀ m dst, .got k m dst ∈ tr ↔ ψ.log = some (m, dst)
  alone : ψ.log.isSome → ψ.forked = false
  sent : ψ.forked = false → (∀ pid, .forked k pid ∉ tr) ∧ sentTo tr k = ψ.sent

inductive Done (look : Tid n → View) (ds : List Request) (serving : Fin n → Nat)
    (rest : Fin n → Option (Calls ThreadsStats)) (session : Fin n → Session) : Nat → Session → Prop
  | unseen {k : Nat} (new : ds.length ≤ k) : Done look ds serving rest session k .new
  | taken {i : Fin n} {req} (worker : look (.worker i) = .taken req) :
      Done look ds serving rest session (serving i) .new
  | called {i : Fin n} (calling : (rest i).isSome) :
      Done look ds serving rest session (serving i) (session i)

def Told (look : Tid n → View) (ds : List Request) (serving : Fin n → Nat)
    (rest : Fin n → Option (Calls ThreadsStats)) (session : Fin n → Session) (tr : List (Event n)) :
    Prop :=
  ∀ k ψ, Done look ds serving rest session k ψ → Tells tr k ψ

theorem Tells.start (k : Nat) : Tells ([] : List (Event n)) k .new where
  got m dst := by simp [Session.new]
  alone h := by cases h
  sent _ := ⟨by simp, rfl⟩

theorem Tells.snoc (h : Tells tr k ψ) (he : about k e = false) : Tells (tr ++ [e]) k ψ where
  got m dst := by
    rw [← h.got, List.mem_append, List.mem_singleton]
    refine or_iff_left ?_
    rintro rfl
    simp [about] at he
  alone := h.alone
  sent hf := by
    obtain ⟨hforked, hsent⟩ := h.sent hf
    refine ⟨fun pid => ?_, (sentTo_other he).trans hsent⟩
    rw [List.mem_append, List.mem_singleton, not_or]
    refine ⟨hforked pid, ?_⟩
    rintro rfl
    simp [about] at he

theorem Tells.output (h : Tells tr k ψ) (hf : ∃ pid, .forked k pid ∈ tr) (bytes : Bytes) :
    Tells (tr ++ [.sent k bytes]) k ψ where
  got m dst := by simp [← h.got]
  alone := h.alone
  sent hnone := hf.elim fun pid hpid => absurd hpid ((h.sent hnone).1 pid)

theorem Tells.wrote (h : Tells tr k ψ) (bytes : Bytes) :
    Tells (tr ++ [.sent k bytes]) k { ψ with sent := ψ.sent ++ bytes } where
  got m dst := by simp [← h.got]
  alone := h.alone
  sent hf := by
    obtain ⟨hforked, hsent⟩ := h.sent hf
    exact ⟨by simpa using hforked, by rw [sentTo_snoc, hsent, if_pos rfl]⟩

theorem Tells.forked (h : Tells tr k ψ) (hlog : ψ.log = none) (pid : Nat) :
    Tells (tr ++ [.forked k pid]) k { ψ with forked := true } where
  got m dst := by simp [← h.got]
  alone hsome := by rw [hlog] at hsome; cases hsome
  sent hf := by cases hf

theorem Tells.read (h : Tells tr k ψ) (hlog : ψ.log = none) (hf : ψ.forked = false) (m : Int)
    (dst : Bytes) : Tells (tr ++ [.got k m dst]) k { ψ with log := some (m, dst) } where
  got m' dst' := by
    have hnone : .got k m' dst' ∉ tr := by rw [h.got, hlog]; nofun
    simp [hnone, eq_comm]
  alone _ := hf
  sent _ := by
    obtain ⟨hforked, hsent⟩ := h.sent hf
    exact ⟨by simpa using hforked, by rw [← hsent]; simp [sentTo]⟩

theorem Tells.file (h : Tells tr k ψ) (file : Option Int) : Tells tr k { ψ with file := file } where
  got := h.got
  alone := h.alone
  sent := h.sent

theorem Told.snoc (h : Told look ds serving rest session tr) (he : ∀ k, about k e = false) :
    Told look ds serving rest session (tr ++ [e]) := fun k ψ hdone => (h k ψ hdone).snoc (he k)

theorem Told.goOn (h : Told look ds serving rest session tr) (hn : Numbers look es ds serving accepts)
    (hcalling : Calling look rest session) {req : Request} (hlook : look (.worker i) = .handling req)
    {tr' : List (Event n)} (hown : Tells tr' (serving i) ψ')
    (hother : ∀ k ψ, k ≠ serving i → Tells tr k ψ → Tells tr' k ψ) :
    Told look ds serving (Function.update rest i (some x)) (Function.update session i ψ') tr' := by
  have hbusy : busy (look (.worker i)) = true := by rw [hlook]; rfl
  have apart {j : Fin n} (hj : busy (look (.worker j)) = true) (hji : j ≠ i) :
      serving j ≠ serving i := fun heq => hji (hn.distinct j i hj hbusy heq)
  intro k ψ hdone
  cases hdone with
  | unseen new => exact hother _ _ (by have := hn.below i hbusy; omega) (h _ _ (.unseen new))
  | @taken j req' worker =>
      have hji : j ≠ i := by
        rintro rfl
        rw [hlook] at worker
        cases worker
      exact hother _ _ (apart (by rw [worker]; rfl) hji) (h _ _ (.taken worker))
  | @called j calling =>
      by_cases hji : j = i
      · subst j
        rwa [Function.update_self]
      · rw [Function.update_of_ne hji] at calling ⊢
        obtain ⟨y, hy⟩ := Option.isSome_iff_exists.1 calling
        obtain ⟨⟨req', hlook'⟩, -⟩ := hcalling j y hy
        exact hother _ _ (apart (by rw [hlook']; rfl) hji) (h _ _ (.called calling))

theorem Told.moves (h : Told look ds serving rest session tr) {t : Tid n} {v : View}
    (hv : ∀ req, v ≠ .taken req) : Told (Function.update look t v) ds serving rest session tr := by
  intro k ψ hdone
  cases hdone with
  | unseen new => exact h _ _ (.unseen new)
  | @taken j req worker =>
      by_cases hj : Tid.worker j = t
      · subst t
        rw [Function.update_self] at worker
        exact absurd worker (hv req)
      · rw [Function.update_of_ne hj] at worker
        exact h _ _ (.taken worker)
  | called calling => exact h _ _ (.called calling)

theorem Told.take (h : Told look ds serving rest session tr) (hrest : rest i = none) (req : Request) :
    Told (Function.update look (.worker i) (.taken req)) (ds ++ [req])
      (Function.update serving i ds.length) rest session tr := by
  intro k ψ hdone
  cases hdone with
  | unseen new => exact h _ _ (.unseen (by rw [List.length_append] at new; omega))
  | @taken j req' worker =>
      by_cases hj : j = i
      · subst j
        rw [Function.update_self]
        exact h _ _ (.unseen le_rfl)
      · rw [Function.update_of_ne (by simpa using hj)] at worker
        rw [Function.update_of_ne hj]
        exact h _ _ (.taken worker)
  | @called j calling =>
      have hj : j ≠ i := by
        rintro rfl
        rw [hrest] at calling
        cases calling
      rw [Function.update_of_ne hj]
      exact h _ _ (.called calling)

theorem Told.call (h : Told look ds serving rest session tr) {req : Request}
    (htaken : look (.worker i) = .taken req) (x : Calls ThreadsStats) :
    Told look ds serving (Function.update rest i (some x)) (Function.update session i .new) tr := by
  intro k ψ hdone
  cases hdone with
  | unseen new => exact h _ _ (.unseen new)
  | taken worker => exact h _ _ (.taken worker)
  | @called j calling =>
      by_cases hj : j = i
      · subst j
        rw [Function.update_self]
        exact h _ _ (.taken htaken)
      · rw [Function.update_of_ne hj] at calling ⊢
        exact h _ _ (.called calling)

theorem Told.leave (h : Told look ds serving rest session tr) (i : Fin n) :
    Told look ds serving (Function.update rest i none) session tr := by
  intro k ψ hdone
  cases hdone with
  | unseen new => exact h _ _ (.unseen new)
  | taken worker => exact h _ _ (.taken worker)
  | @called j calling =>
      by_cases hj : j = i
      · subst j
        rw [Function.update_self] at calling
        cases calling
      · rw [Function.update_of_ne hj] at calling
        exact h _ _ (.called calling)

theorem told_change (hn : Numbers s.look s.enqueued s.dequeued s.serving s.accepts)
    (hcalling : Calling s.look s.rest s.session) (ht : Conns s.fds (SystemHas s))
    (horigin : ∀ pid child, s.children pid = some child → ∃ pid', .forked child.serves pid' ∈ s.trace)
    (h : Told s.look s.dequeued s.serving s.rest s.session s.trace) (hc : Change s s') :
    Told s'.look s'.dequeued s'.serving s'.rest s'.session s'.trace := by
  have frame {τ : QueueState n} {t : Tid n} {v v' : View} {es ds : List Request}
      (hm : Moves s τ t v v' es ds) {serving : Fin n → Nat} {rest : Fin n → Option (Calls ThreadsStats)}
      {session : Fin n → Session} {tr : List (Event n)}
      (ht : Told (Function.update s.look t v') (s.dequeued ++ ds) serving rest session tr) :
      Told (fun u => view (τ.place u)) (QueueRefinement.dequeued τ.data.trace) serving rest session tr := by
    rwa [hm.dequeued, funext hm.look]
  have moves {τ : QueueState n} {t : Tid n} {v v' : View} {es : List Request}
      (hm : Moves s τ t v v' es []) (hv : ∀ req, v' ≠ .taken req) :
      Told (fun u => view (τ.place u)) (QueueRefinement.dequeued τ.data.trace) s.serving s.rest
        s.session s.trace := by
    apply frame hm
    rw [List.append_nil]
    exact h.moves hv
  -- what a worker does tells nothing of the other connections
  have other {i : Fin n} {e : Event n} (he : ∀ k, k ≠ s.serving i → about k e = false) (k : Nat)
      (ψ : Session) (hk : k ≠ s.serving i) (ht : Tells s.trace k ψ) : Tells (s.trace ++ [e]) k ψ :=
    ht.snoc (he k hk)
  have own {i : Fin n} {x : Calls ThreadsStats} (hx : s.rest i = some x) :
      Tells s.trace (s.serving i) (s.session i) := h _ _ (.called (by rw [hx]; rfl))
  cases hc with
  | quiet hm =>
      apply frame hm
      rwa [List.append_nil, ← hm.old, Function.update_eq_self]
  | accepted hm | enqueued hm | closed hm | finished hm =>
      have hmoved := moves hm nofun
      exact hmoved.snoc fun _ => rfl
  | @dequeued τ i req hm =>
      have hrest : s.rest i = none := hcalling.away (by rw [hm.old]; nofun)
      have htaken := frame hm (h.take hrest req)
      exact htaken.snoc fun _ => rfl
  | called hm follows =>
      apply frame hm
      rw [List.append_nil]
      exact (h.call hm.old _).moves nofun
  | @returned τ i req stats hm rest =>
      have hleft : Told (fun u => view (τ.place u)) (QueueRefinement.dequeued τ.data.trace) s.serving
          (Function.update s.rest i none) s.session s.trace := by
        apply frame hm
        rw [List.append_nil]
        exact (h.leave i).moves nofun
      exact hleft.snoc fun _ => rfl
  | reads | logged => exact h.snoc fun _ => rfl
  | @got μ i dst m k hm rest =>
      obtain ⟨⟨req, hlook⟩, ⟨hlog, hforked⟩, -⟩ := hcalling i _ rest
      refine h.goOn hn hcalling hlook ((own rest).read hlog hforked m dst) (other fun k hk => ?_)
      simpa [about] using hk.symm
  | @added μ i bs len k hm rest =>
      obtain ⟨⟨req, hlook⟩, -⟩ := hcalling i _ rest
      exact h.goOn hn hcalling hlook (own rest) fun _ _ _ ht => ht
  | answered a look rest same =>
      refine h.goOn hn hcalling look ?_ fun _ _ _ ht => ht
      rw [same]
      exact own rest
  | @wrote i req usrbuf m k c j look rest conn le =>
      have hserved : inService (s.look (.worker i)) = some req := by rw [look]; rfl
      have hconn := ht.served hserved
      obtain rfl : s.serving i = c := by simpa using hconn.symm.trans conn
      refine h.goOn hn hcalling look ((own rest).wrote _) (other fun k hk => ?_)
      simpa [about] using hk.symm
  | opened look rest | fileClosed look rest =>
      exact h.goOn hn hcalling look ((own rest).file _) fun _ _ _ ht => ht
  | @forked i req cgiargs filename k look rest =>
      have hlog : (s.session i).log = none := (hcalling i _ rest).2.1
      refine h.goOn hn hcalling look ((own rest).forked hlog _) (other fun k hk => ?_)
      simpa [about] using hk.symm
  | @output pid child bytes found live =>
      intro k' ψ hdone
      have hk' := h k' ψ hdone
      by_cases hk : k' = child.serves
      · subst k'
        exact hk'.output (horigin pid child found) bytes
      · exact hk'.snoc (by simpa [about] using Ne.symm hk)
  | duplicated | spawned | shut | ended => exact h.snoc fun _ => rfl
  | _ => exact h

theorem told_reachable (hcap : 1 ≤ cap) (h : Reachable (start n junk cap byte listenfd) s) :
    Told s.look s.dequeued s.serving s.rest s.session s.trace := by
  refine h.changes (I := fun s => Told s.look s.dequeued s.serving s.rest s.session s.trace)
    (fun k ψ hdone => ?_) fun s s' hr _ hi hc => told_change (numbers_reachable hcap hr)
      (calling_reachable hr) (tables_reachable hcap hr).conns
      (fun pid child found => child_origin hr found) hi hc
  cases hdone with
  | unseen => exact .start k
  | taken | called => exact .start _

end WebServer.RequestHistory
