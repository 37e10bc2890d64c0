import WebServer.Accounting
import WebServer.LogHistory

namespace WebServer.EndOfFile

open Message RequestCalls Server Connections Accounting
open RequestQueue (Tid Request)

variable {n cap : Nat} {junk : Nat → Request} {byte : Nat → ServerLog.Byte} {listenfd : Int}
  {s s' : System n} {look : Tid n → View} {es ds : List Request} {serving : Fin n → Nat}
  {accepts forks k pid pid' : Nat} {fd : Int} {tr tr' : List (Event n)} {fds : Descriptors n}
  {children : Nat → Option (Child n)} {child child' : Child n} {e : Event n}

/-- Connection `k` has been accepted as `fd` and not been closed. -/
def OpenAs (tr : List (Event n)) (k : Nat) (fd : Int) : Prop :=
  .accepted k fd ∈ tr ∧ ∀ i, .closed k i ∉ tr

/-- A live process has a descriptor of connection `k`. -/
def Held (s : System n) (k : Nat) : Prop :=
  (s.queue.data.running = true ∧ ∃ fd, s.fds fd = some (.connection k)) ∨
    ∃ pid child, s.children pid = some child ∧ child.ended = false ∧
      ∃ fd, child.fds fd = some (.connection k)

theorem mem_life {e : Event n} (he : lifeOf e = some k) : e ∈ life k tr ↔ e ∈ tr := by
  simp [life, he]

theorem has_iff_open (hn : Numbers look es ds serving accepts) (hds : ds <+: es)
    (h : Life look es ds serving accepts k (life k tr)) :
    Has look es ds serving accepts k fd ↔ OpenAs tr k fd := by
  obtain ⟨hle, hle'⟩ := numbers_le hn hds
  have hopen : OpenAs tr k fd ↔ .accepted k fd ∈ life k tr ∧ ∀ i, .closed k i ∉ life k tr := by
    simp only [OpenAs, mem_life (rfl : lifeOf (.accepted k _) = _),
      mem_life (rfl : lifeOf (.closed k _) = _)]
  have last {connfd : Int} (hheld : held (look .main) = some connfd) : accepts = es.length + 1 := by
    have haccepts := hn.accepts
    rwa [hheld, Option.isSome_some, if_pos rfl] at haccepts
  have taken {i : Fin n} {req : Request} (hreq : inService (look (.worker i)) = some req) :
      serving i < ds.length := hn.below i (busy_of_inService hreq)
  -- a worker that has the connection is the only one that does
  have own {i : Fin n} {req : Request} (hreq : inService (look (.worker i)) = some req)
      (hk : serving i = k) : Has look es ds serving accepts k fd ↔ req.connfd = fd := by
    have hkds := taken hreq
    refine ⟨?_, fun hfd => .inr (.inr ⟨i, req, hreq, hk, hfd⟩)⟩
    rintro (⟨hheld, hlast⟩ | ⟨hle, -⟩ | ⟨j, req', hreq', hj, hfd⟩)
    · have := last hheld
      omega
    · omega
    · obtain rfl := hn.distinct j i (busy_of_inService hreq') (busy_of_inService hreq)
        (hj.trans hk.symm)
      obtain rfl := Option.some.inj (hreq'.symm.trans hreq)
      exact hfd
  rw [hopen]
  generalize life k tr = evs at h
  cases h with
  | unseen new =>
      refine iff_of_false ?_ (by simp)
      rintro (⟨-, hlast⟩ | ⟨-, req, hreq, -⟩ | ⟨i, req, hreq, hk, -⟩)
      · omega
      · have := (List.getElem?_eq_some_iff.1 hreq).1
        omega
      · have := taken hreq
        omega
  | @held connfd main hk =>
      have haccepts := last main
      have hhas : Has look es ds serving accepts k fd ↔ connfd = fd := by
        refine ⟨?_, fun hfd => .inl ⟨hfd ▸ main, hk⟩⟩
        rintro (⟨hheld, -⟩ | ⟨-, req, hreq, -⟩ | ⟨i, req, hreq, hi, -⟩)
        · exact Option.some.inj (main.symm.trans hheld)
        · have := (List.getElem?_eq_some_iff.1 hreq).1
          omega
        · have := taken hreq
          omega
      rw [hhas]
      simp [eq_comm]
  | @pending req waits entry =>
      have hkes := (List.getElem?_eq_some_iff.1 entry).1
      have hhas : Has look es ds serving accepts k fd ↔ req.connfd = fd := by
        refine ⟨?_, fun hfd => .inr (.inl ⟨waits, req, entry, hfd⟩)⟩
        rintro (⟨hheld, hlast⟩ | ⟨-, req', hreq', hfd⟩ | ⟨i, req', hreq', hi, -⟩)
        · have := last hheld
          omega
        · obtain rfl := Option.some.inj (hreq'.symm.trans entry)
          exact hfd
        · have := taken hreq'
          omega
      rw [hhas]
      simp [eq_comm]
  | @served i req worker number =>
      rw [@own i req (by rcases worker with hw | hw <;> rw [hw] <;> rfl) number]
      simp [eq_comm]
  | @closing i req worker number =>
      rw [@own i req (by rw [worker]; rfl) number]
      simp [eq_comm]
  | @finishing i connfd worker number =>
      refine iff_of_false ?_ (by simp)
      have hbusy : busy (look (.worker i)) = true := by rw [worker]; rfl
      have hkds := hn.below i hbusy
      rintro (⟨hheld, hlast⟩ | ⟨hle, -⟩ | ⟨j, req, hreq, hj, -⟩)
      · have := last hheld
        omega
      · omega
      · obtain rfl := hn.distinct j i (busy_of_inService hreq) hbusy (hj.trans number.symm)
        rw [worker] at hreq
        cases hreq
  | ended hk left =>
      refine iff_of_false ?_ (by simp [story])
      rintro (⟨hheld, hlast⟩ | ⟨hle, -⟩ | ⟨j, req, hreq, hj, -⟩)
      · have := last hheld
        omega
      · omega
      · exact left j (busy_of_inService hreq) hj

theorem open_iff (hcap : 1 ≤ cap) (h : Reachable (start n junk cap byte listenfd) s) :
    s.fds fd = some (.connection k) ↔ OpenAs s.trace k fd := by
  rw [← has_iff_open (numbers_reachable hcap h) (dequeued_of_enqueued hcap h) (lives_reachable hcap h k)]
  exact (tables_reachable hcap h).conns fd k

/-- After `e` the process `pid` has no longer what it had as `fd`. -/
def loses (pid : Nat) (fd : Int) : Event n → Bool
  | .shut pid' fd' | .duplicated pid' _ fd' => decide (pid' = pid ∧ fd' = fd)
  | _ => false

/-- The copies of connection `k`: a child that the server makes while `k` is open gets one,
and a process that has one hands it on and keeps it until it closes it. -/
inductive CopyOf (k : Nat) : List (Event n) → Nat → Int → Prop
  | forked {tr : List (Event n)} {k' pid : Nat} {fd : Int} (opened : OpenAs tr k fd) :
      CopyOf k (tr ++ [.forked k' pid]) pid fd
  | spawned {tr : List (Event n)} {pid pid' : Nat} {fd : Int} (copy : CopyOf k tr pid fd) :
      CopyOf k (tr ++ [.spawned pid pid']) pid' fd
  | duplicated {tr : List (Event n)} {pid : Nat} {oldfd newfd : Int} (copy : CopyOf k tr pid oldfd) :
      CopyOf k (tr ++ [.duplicated pid oldfd newfd]) pid newfd
  | kept {tr : List (Event n)} {e : Event n} {pid : Nat} {fd : Int} (copy : CopyOf k tr pid fd)
      (kept : loses pid fd e = false) : CopyOf k (tr ++ [e]) pid fd

theorem copyOf_snoc : CopyOf k (tr ++ [e]) pid fd ↔
    (∃ k', e = .forked k' pid ∧ OpenAs tr k fd) ∨
      (∃ pid', e = .spawned pid' pid ∧ CopyOf k tr pid' fd) ∨
      (∃ oldfd, e = .duplicated pid oldfd fd ∧ CopyOf k tr pid oldfd) ∨
      CopyOf k tr pid fd ∧ loses pid fd e = false := by
  constructor
  · intro h
    generalize htr : tr ++ [e] = tr' at h
    cases h with
    | @forked tr₀ k' pid fd opened =>
        obtain ⟨rfl, he⟩ := List.append_inj' htr rfl
        exact .inl ⟨k', List.singleton_inj.1 he, opened⟩
    | @spawned tr₀ pid pid' fd copy =>
        obtain ⟨rfl, he⟩ := List.append_inj' htr rfl
        exact .inr (.inl ⟨pid, List.singleton_inj.1 he, copy⟩)
    | @duplicated tr₀ pid oldfd newfd copy =>
        obtain ⟨rfl, he⟩ := List.append_inj' htr rfl
        exact .inr (.inr (.inl ⟨oldfd, List.singleton_inj.1 he, copy⟩))
    | kept copy kept =>
        obtain ⟨rfl, he⟩ := List.append_inj' htr rfl
        obtain rfl := List.singleton_inj.1 he
        exact .inr (.inr (.inr ⟨copy, kept⟩))
  · rintro (⟨k', rfl, h⟩ | ⟨pid', rfl, h⟩ | ⟨oldfd, rfl, h⟩ | ⟨h, hkept⟩)
    · exact .forked h
    · exact .spawned h
    · exact .duplicated h
    · exact h.kept hkept

structure Copies (children : Nat → Option (Child n)) (forks : Nat) (tr : List (Event n)) : Prop where
  copies : ∀ k pid fd, CopyOf k tr pid fd ↔
    ∃ child, children pid = some child ∧ child.fds fd = some (.connection k)
  fresh : ∀ pid, forks < pid → children pid = none

def Endings (children : Nat → Option (Child n)) (tr : List (Event n)) : Prop :=
  ∀ pid, .ended pid ∈ tr ↔ ∃ child, children pid = some child ∧ child.ended = true

theorem Copies.snoc (h : Copies children forks tr) (hf : ∀ k pid, e ≠ .forked k pid)
    (hs : ∀ pid pid', e ≠ .spawned pid pid') (hd : ∀ pid oldfd newfd, e ≠ .duplicated pid oldfd newfd)
    (hl : ∀ pid fd, loses pid fd e = false) : Copies children forks (tr ++ [e]) where
  copies k pid fd := by
    rw [← h.copies, copyOf_snoc]
    constructor
    · rintro (⟨k', he, -⟩ | ⟨pid', he, -⟩ | ⟨oldfd, he, -⟩ | ⟨hcopy, -⟩)
      · exact absurd he (hf _ _)
      · exact absurd he (hs _ _)
      · exact absurd he (hd _ _ _)
      · exact hcopy
    · exact fun hcopy => .inr (.inr (.inr ⟨hcopy, hl pid fd⟩))
  fresh := h.fresh

theorem Copies.unmade (h : Copies children forks tr) : ¬ CopyOf k tr (forks + 1) fd := by
  rw [h.copies]
  rintro ⟨child, hfound, -⟩
  rw [h.fresh _ (Nat.lt_succ_self _)] at hfound
  cases hfound

theorem Copies.make (h : Copies children forks tr)
    (hnew : ∀ k pid fd, CopyOf k (tr ++ [e]) pid fd ↔
      (pid = forks + 1 ∧ child.fds fd = some (.connection k)) ∨ CopyOf k tr pid fd) :
    Copies (Function.update children (forks + 1) (some child)) (forks + 1) (tr ++ [e]) where
  copies k pid fd := by
    rw [hnew]
    by_cases hpid : pid = forks + 1
    · subst pid
      rw [or_iff_left h.unmade]
      simp
    · rw [Function.update_of_ne hpid, ← h.copies, or_iff_right fun hmade => hpid hmade.1]
  fresh pid hpid := by
    rw [Function.update_of_ne (by omega)]
    exact h.fresh pid (by omega)

theorem Copies.fork (h : Copies children forks tr)
    (hopen : ∀ k fd, fds fd = some (.connection k) ↔ OpenAs tr k fd) (k' serves : Nat) :
    Copies (Function.update children (forks + 1) (some ⟨fds, serves, false, false⟩)) (forks + 1)
      (tr ++ [.forked k' (forks + 1)]) := by
  refine h.make fun k pid fd => ?_
  rw [copyOf_snoc, hopen]
  simp [loses, eq_comm]

theorem Copies.spawn (h : Copies children forks tr) (hfound : children pid = some child)
    (hfds : child'.fds = child.fds) : Copies (Function.update children (forks + 1) (some child'))
      (forks + 1) (tr ++ [.spawned pid (forks + 1)]) := by
  refine h.make fun k pid' fd => ?_
  have hcopy : CopyOf k tr pid fd ↔ child'.fds fd = some (.connection k) := by
    rw [h.copies, hfound, hfds]
    simp
  rw [copyOf_snoc, ← hcopy]
  simp [loses, eq_comm]

theorem Copies.update (h : Copies children forks tr) (hfound : children pid = some child)
    (hown : ∀ k fd, CopyOf k tr' pid fd ↔ child'.fds fd = some (.connection k))
    (hother : ∀ k pid' fd, pid' ≠ pid → (CopyOf k tr' pid' fd ↔ CopyOf k tr pid' fd)) :
    Copies (Function.update children pid (some child')) forks tr' where
  copies k pid' fd := by
    by_cases hpid : pid' = pid
    · subst pid'
      rw [hown, Function.update_self]
      simp
    · rw [hother k pid' fd hpid, h.copies, Function.update_of_ne hpid]
  fresh pid' hpid := by
    have hnone := h.fresh pid' hpid
    rwa [Function.update_of_ne]
    rintro rfl
    rw [hnone] at hfound
    cases hfound

theorem Copies.own (h : Copies children forks tr) (hfound : children pid = some child) :
    CopyOf k tr pid fd ↔ child.fds fd = some (.connection k) := by
  rw [h.copies, hfound]
  simp

theorem Copies.same (h : Copies children forks tr) (hfound : children pid = some child)
    (hfds : child'.fds = child.fds) :
    Copies (Function.update children pid (some child')) forks tr :=
  h.update hfound (fun k fd => by rw [h.own hfound, hfds]) fun _ _ _ _ => Iff.rfl

theorem Copies.duplicate (h : Copies children forks tr) (hfound : children pid = some child)
    (oldfd newfd : Int) : Copies (Function.update children pid
      (some { child with fds := Function.update child.fds newfd (child.fds oldfd) })) forks
      (tr ++ [.duplicated pid oldfd newfd]) := by
  refine h.update hfound (fun k fd => ?_) fun k pid' fd hpid => ?_
  · rw [copyOf_snoc, h.own hfound]
    dsimp only
    by_cases hfd : fd = newfd
    · subst fd
      rw [Function.update_self]
      simp [loses, h.own hfound]
    · rw [Function.update_of_ne hfd]
      simp [loses, Ne.symm hfd]
  · rw [copyOf_snoc]
    simp [loses, Ne.symm hpid]

theorem Copies.shut (h : Copies children forks tr) (hfound : children pid = some child) (fd : Int) :
    Copies (Function.update children pid
      (some { child with fds := Function.update child.fds fd none })) forks
      (tr ++ [.shut pid fd]) := by
  refine h.update hfound (fun k fd' => ?_) fun k pid' fd' hpid => ?_
  · rw [copyOf_snoc, h.own hfound]
    dsimp only
    by_cases hfd : fd' = fd
    · subst fd'
      simp [loses]
    · rw [Function.update_of_ne hfd]
      simp [loses, Ne.symm hfd]
  · rw [copyOf_snoc]
    simp [loses, Ne.symm hpid]

theorem copies_change (hopen : ∀ k fd, s.fds fd = some (.connection k) ↔ OpenAs s.trace k fd)
    (h : Copies s.children s.forks s.trace) (hc : Change s s') :
    Copies s'.children s'.forks s'.trace := by
  cases hc with
  | accepted | enqueued | dequeued | returned | closed | finished | reads | got | logged | wrote
  | output => exact h.snoc nofun nofun nofun fun _ _ => rfl
  | forked look rest => exact h.fork hopen _ _
  | spawned found live => exact h.spawn found rfl
  | duplicated found live => exact h.duplicate found _ _
  | shut found live => exact h.shut found _
  | signalled stopped found live => exact h.same found rfl
  | @ended pid child found live =>
      have hended : Copies (Function.update s.children pid (some { child with ended := true }))
          s.forks s.trace := h.same found rfl
      exact hended.snoc nofun nofun nofun fun _ _ => rfl
  | _ => exact h

theorem Endings.snoc (h : Endings children tr) (he : ∀ pid, e ≠ .ended pid) :
    Endings children (tr ++ [e]) := fun pid => by
  rw [List.mem_append, List.mem_singleton, ← h pid]
  exact or_iff_left (he pid).symm

theorem Endings.update (h : Endings children tr)
    (hsame : (∃ old, children pid = some old ∧ old.ended = true) ↔ child.ended = true) :
    Endings (Function.update children pid (some child)) tr := fun pid' => by
  rw [h pid']
  by_cases hpid : pid' = pid
  · subst pid'
    rw [hsame, Function.update_self]
    simp
  · rw [Function.update_of_ne hpid]

theorem Endings.exit (h : Endings children tr) :
    Endings (Function.update children pid (some { child with ended := true })) (tr ++ [.ended pid]) :=
  fun pid' => by
    rw [List.mem_append, List.mem_singleton, h pid']
    by_cases hpid : pid' = pid
    · subst pid'
      simp
    · rw [Function.update_of_ne hpid]
      simp [hpid]

theorem endings_change (hi : Copies s.children s.forks s.trace) (h : Endings s.children s.trace)
    (hc : Change s s') : Endings s'.children s'.trace := by
  have live {pid : Nat} {child : Child n} (child' : Child n)
      (found : s.children pid = some child) (hended : child'.ended = child.ended) :
      Endings (Function.update s.children pid (some child')) s.trace :=
    h.update (by rw [found, hended]; simp)
  have made (child' : Child n) (hlive : child'.ended = false) :
      Endings (Function.update s.children (s.forks + 1) (some child')) s.trace :=
    h.update (by rw [hi.fresh _ (Nat.lt_succ_self _), hlive]; simp)
  cases hc with
  | accepted | enqueued | dequeued | returned | closed | finished | reads | got | logged | wrote
  | output => exact h.snoc nofun
  | @forked i req cgiargs filename k look rest =>
      have hmade := made ⟨s.fds, s.serving i, false, false⟩ rfl
      exact hmade.snoc nofun
  | @spawned pid child found hlive =>
      have hmade := made { child with stopped := false } hlive
      exact hmade.snoc nofun
  | @duplicated pid child oldfd newfd found =>
      have hgoes := live { child with
        fds := Function.update child.fds newfd (child.fds oldfd) } found rfl
      exact hgoes.snoc nofun
  | @shut pid child fd found =>
      have hgoes := live { child with fds := Function.update child.fds fd none } found rfl
      exact hgoes.snoc nofun
  | signalled stopped found => exact live _ found rfl
  | ended => exact h.exit
  | _ => exact h

theorem copies_start : Copies (fun _ => none : Nat → Option (Child n)) 0 [] where
  copies k pid fd := by
    refine iff_of_false (fun h => ?_) (by simp)
    generalize htr : ([] : List (Event n)) = tr at h
    cases h <;> simp at htr
  fresh _ _ := rfl

theorem copies_reachable (hcap : 1 ≤ cap) (h : Reachable (start n junk cap byte listenfd) s) :
    Copies s.children s.forks s.trace ∧ Endings s.children s.trace :=
  h.changes (I := fun s => Copies s.children s.forks s.trace ∧ Endings s.children s.trace)
    ⟨copies_start, fun pid => by simp [start]⟩
    fun _ _ hr _ hi hc => ⟨copies_change (fun _ _ => open_iff hcap hr) hi.1 hc,
      endings_change hi.1 hi.2 hc⟩

/-- The child `pid` was made by the server while connection `k` was open. -/
def ForkedWhileOpen (tr : List (Event n)) (k pid : Nat) : Prop :=
  ∃ pre k' post fd, tr = pre ++ .forked k' pid :: post ∧ OpenAs pre k fd

/-- The programs make no processes, close nothing and only set their standard output. -/
def plain (tr : List (Event n)) : Bool :=
  tr.all fun
    | .spawned _ _ | .shut _ _ => false
    | .duplicated _ _ newfd => decide (newfd = 1)
    | _ => true

theorem ForkedWhileOpen.snoc (h : ForkedWhileOpen tr k pid) (e : Event n) :
    ForkedWhileOpen (tr ++ [e]) k pid := by
  obtain ⟨pre, k', post, fd, rfl, hopen⟩ := h
  exact ⟨pre, k', post ++ [e], fd, by simp, hopen⟩

theorem CopyOf.origin (h : CopyOf k tr pid fd) (hplain : plain tr = true) :
    ForkedWhileOpen tr k pid := by
  induction h with
  | @forked tr k' pid fd opened => exact ⟨tr, k', [], fd, rfl, opened⟩
  | spawned copy ih => simp [plain] at hplain
  | duplicated copy ih | kept copy kept ih =>
      rw [plain, List.all_append, Bool.and_eq_true] at hplain
      exact (ih hplain.1).snoc _

theorem ForkedWhileOpen.copy (h : ForkedWhileOpen tr k pid) (hplain : plain tr = true)
    (hfd : .accepted k 1 ∉ tr) : ∃ fd, CopyOf k tr pid fd := by
  obtain ⟨pre, k', post, fd, rfl, hopen⟩ := h
  refine ⟨fd, ?_⟩
  have hne : fd ≠ 1 := by
    rintro rfl
    exact hfd (List.mem_append_left _ hopen.1)
  have hpost : ∀ e ∈ post, loses pid fd e = false := by
    intro e he
    have hplain := List.all_eq_true.1 hplain e (by simp [he])
    cases e with
    | spawned | shut => cases hplain
    | duplicated pid' oldfd newfd =>
        obtain rfl : newfd = 1 := of_decide_eq_true hplain
        simp [loses, hne.symm]
    | _ => rfl
  rw [← List.singleton_append, ← List.append_assoc]
  clear hplain hfd
  induction post using List.reverseRecOn with
  | nil => simpa using CopyOf.forked hopen
  | append_singleton post e ih =>
      rw [← List.append_assoc]
      exact (ih fun e he => hpost e (by simp [he])).kept (hpost e (by simp))

theorem accepted_ne (hcap : 1 ≤ cap) (h : Reachable (start n junk cap byte listenfd) s) :
    .accepted k 1 ∉ s.trace := by
  refine h.changes (I := fun s => .accepted k 1 ∉ s.trace) (by simp [start])
    fun s s' hr _ hi hc => ?_
  cases hc with
  | @accepted τ connfd hm closed =>
      have hstdout := (tables_reachable hcap hr).stdout
      have hne : connfd ≠ 1 := by
        rintro rfl
        cases closed.symm.trans hstdout
      simpa [hne.symm] using hi
  | enqueued | dequeued | returned | closed | finished | reads | got | logged | wrote | forked
  | output | duplicated | spawned | shut | ended => simpa using hi
  | _ => exact hi

def inherit : List (Move 2) :=
  let line (bytes : Bytes) : Server.Answer := .line bytes.length bytes ⟨[]⟩
  arrive 4 ++ take 0 .empty ++ .call 0 (line (str "PUT / HTTP/1.0\r\n")) :: arrive 5 ++
    take 1 { Frame.empty with fuel := 1 } ++
    [.call 1 (line (str "GET /output.cgi HTTP/1.0\r\n")), .call 1 (line (str "\r\n")),
      .call 1 (.stat (some ⟨true, true, true, 1⟩)), .call 1 (.wrote 219), .call 1 .done, .call 1 .done,
      .child 1 (.dup2 5 1)]

def refuse : List (Move 2) :=
  ([30, 25, 196, 154].flatMap fun j => [.call 0 (.wrote j), .call 0 .done, .call 0 .done]) ++
    leave 0 ⟨1, 0, 0, 0, 1⟩

theorem refuse_ends : ((System.replay (inherit ++ refuse)
    (start 2 (fun _ => ⟨0, 0, 0⟩) 2 (fun _ => 0) 3)).any fun s =>
      decide (.forked 1 1 ∈ s.trace ∧ .closed 0 0 ∈ s.trace) &&
        (s.children 1).any fun child =>
          !child.ended && decide (child.fds 4 = some (.connection 0))) = true := by
  decide +kernel

/-- The program of another client keeps a closed connection open. -/
theorem closed_not_ended : ∃ s : System 2,
    Reachable (start 2 (fun _ => ⟨0, 0, 0⟩) 2 (fun _ => 0) 3) s ∧ .forked 1 1 ∈ s.trace ∧
      .closed 0 0 ∈ s.trace ∧ Held s 0 := by
  obtain ⟨s, h, hend⟩ := replay_ends refuse_ends
  obtain ⟨htrace, hchild⟩ := Bool.and_eq_true_iff.1 hend
  obtain ⟨hforked, hclosed⟩ := of_decide_eq_true htrace
  obtain ⟨child, hfound, hheld⟩ := (Option.any_eq_true _ _).1 hchild
  obtain ⟨hlive, hfd⟩ := Bool.and_eq_true_iff.1 hheld
  exact ⟨s, h, hforked, hclosed, .inr ⟨1, child, hfound, by simpa using hlive, 4,
    of_decide_eq_true hfd⟩⟩

theorem held_iff (hcap : 1 ≤ cap) (h : Reachable (start n junk cap byte listenfd) s) {i : Fin n}
    (hclosed : .closed k i ∈ s.trace) :
    Held s k ↔ ∃ pid fd, CopyOf k s.trace pid fd ∧ .ended pid ∉ s.trace := by
  obtain ⟨hcopies, hendings⟩ := copies_reachable hcap h
  constructor
  · rintro (⟨-, fd, hfd⟩ | ⟨pid, child, hfound, hlive, fd, hfd⟩)
    · exact absurd hclosed (((open_iff hcap h).1 hfd).2 i)
    · refine ⟨pid, fd, (hcopies.own hfound).2 hfd, fun hended => ?_⟩
      obtain ⟨child', hfound', hended⟩ := (hendings pid).1 hended
      obtain rfl := Option.some.inj (hfound.symm.trans hfound')
      cases hlive.symm.trans hended
  · rintro ⟨pid, fd, hcopy, hlive⟩
    obtain ⟨child, hfound, hfd⟩ := (hcopies.copies k pid fd).1 hcopy
    refine .inr ⟨pid, child, hfound, ?_, fd, hfd⟩
    by_contra hended
    exact hlive ((hendings pid).2 ⟨child, hfound, by simpa using hended⟩)

/-- Once its worker has closed it, a connection has ended for the client if and only if
the processes have ended that hold copies of it, made since a child was made while it was
open; where the programs make no processes and close nothing, these are the children that
were made while it was open. -/
theorem closed_ends_iff (hcap : 1 ≤ cap) (h : Reachable (start n junk cap byte listenfd) s) {i : Fin n}
    (hclosed : .closed k i ∈ s.trace) :
    (¬ Held s k ↔ ∀ pid fd, CopyOf k s.trace pid fd → .ended pid ∈ s.trace) ∧
      (plain s.trace = true →
        (¬ Held s k ↔ ∀ pid, ForkedWhileOpen s.trace k pid → .ended pid ∈ s.trace)) := by
  have hiff : ¬ Held s k ↔ ∀ pid fd, CopyOf k s.trace pid fd → .ended pid ∈ s.trace := by
    rw [held_iff hcap h hclosed]
    simp only [not_exists, not_and, not_not]
  refine ⟨hiff, fun hplain => hiff.trans (forall_congr' fun pid => ?_)⟩
  constructor
  · intro hends hforked
    obtain ⟨fd, hcopy⟩ := hforked.copy hplain (accepted_ne hcap h)
    exact hends fd hcopy
  · exact fun hends fd hcopy => hends (hcopy.origin hplain)

def allEnded (tr : List (Event n)) : Bool :=
  tr.all fun
    | .forked _ pid | .spawned _ pid => decide (.ended pid ∈ tr)
    | _ => true

theorem CopyOf.made (h : CopyOf k tr pid fd) :
    (∃ k', .forked k' pid ∈ tr) ∨ ∃ pid', .spawned pid' pid ∈ tr := by
  induction h with
  | @forked tr k' pid fd opened => exact .inl ⟨k', by simp⟩
  | @spawned tr pid pid' fd copy ih => exact .inr ⟨pid, by simp⟩
  | duplicated copy ih | kept copy kept ih =>
      exact ih.imp (fun ⟨k', hk'⟩ => ⟨k', List.mem_append_left _ hk'⟩)
        fun ⟨pid', hpid'⟩ => ⟨pid', List.mem_append_left _ hpid'⟩

theorem CopyOf.ended (h : CopyOf k tr pid fd) (hall : allEnded tr = true) : .ended pid ∈ tr := by
  rcases h.made with ⟨k', hk'⟩ | ⟨pid', hpid'⟩
  · exact of_decide_eq_true (List.all_eq_true.1 hall _ hk')
  · exact of_decide_eq_true (List.all_eq_true.1 hall _ hpid')

theorem exit_ends : ((System.replay
    (inherit ++ refuse ++ [.child 1 .fork, .child 1 .exit, .child 2 (.close 4), .child 2 .exit])
    (start 2 (fun _ => ⟨0, 0, 0⟩) 2 (fun _ => 0) 3)).any fun s =>
      decide (.spawned 1 2 ∈ s.trace ∧ .closed 0 0 ∈ s.trace) && allEnded s.trace) = true := by
  decide +kernel

theorem closed_ends_iff_exit : ∃ s : System 2,
    Reachable (start 2 (fun _ => ⟨0, 0, 0⟩) 2 (fun _ => 0) 3) s ∧ .spawned 1 2 ∈ s.trace ∧
      .closed 0 0 ∈ s.trace ∧ ¬ Held s 0 := by
  obtain ⟨s, h, hend⟩ := replay_ends exit_ends
  obtain ⟨htrace, hended⟩ := Bool.and_eq_true_iff.1 hend
  obtain ⟨hspawned, hclosed⟩ := of_decide_eq_true htrace
  exact ⟨s, h, hspawned, hclosed,
    (closed_ends_iff (by decide) h hclosed).1.2 fun pid fd hcopy => hcopy.ended hended⟩

end WebServer.EndOfFile
