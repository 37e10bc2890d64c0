import WebServer.ServedRequests

namespace WebServer.PendingCalls

open Message Process Segel RequestCalls Server Connections LogReaders ServedRequests
open RequestHandle (Locals Target)
open RequestQueue (QueueState Tid Timeval ThreadsStats Request)
open ServerLog (LogState)

/-- A request waits for the child that its `fork` has made, and for no other one. -/
def waits : Protocol Call Call.Answer (Option Nat) where
  allows
    | child, .waitPid pid => child = some pid
    | _, _ => True
  next
    | _, .fork _ _, pid => some pid
    | child, _, _ => child

abbrev Waits {α : Type} (x : Calls α) (child : Option Nat) : Prop :=
  x.Follows waits (fun _ _ => True) child

section

variable {α β : Type} {x : Calls α} {f : α → Calls β} {arrival dispatch : Timeval}
  {stats : ThreadsStats} {child : Option Nat}

def Apart (x : Calls α) : Prop := ∀ child, Waits x child

theorem Apart.bind (h : Apart x) (hf : ∀ a, Apart (f a)) : Apart (x >>= f) :=
  fun child => (h child).bind fun a child' _ => hf a child'

theorem apart_pure (a : α) : Apart (pure a : Calls α) := fun _ => trivial

theorem apart_ask {c : Call} (hc : ∀ child, waits.allows child c) : Apart (.ask c) :=
  fun child => follows_ask (hc child) fun _ => trivial

theorem write_apart (usrbuf : Bytes) (n : Nat) : Apart (RioWriten usrbuf n) :=
  apart_ask fun _ => trivial

theorem printf_apart (bs : Bytes) : Apart (printf bs) := apart_ask fun _ => trivial

theorem readline_apart (rio : Rio) (usrbuf : Bytes) (maxlen : Nat) :
    Apart (RioReadlineb rio usrbuf maxlen) := apart_ask fun _ => trivial

theorem close_apart (fd : Int) : Apart (Close fd) := apart_ask fun _ => trivial

theorem addToLog_apart (data : Bytes) (len : Int) : Apart (addToLog data len) :=
  apart_ask fun _ => trivial

theorem requestError_apart (cause errnum shortmsg longmsg : Bytes) :
    Apart (requestError cause errnum shortmsg longmsg arrival dispatch stats) := by
  rw [requestError]
  dsimp only
  refine (write_apart _ _).bind fun _ => (printf_apart _).bind fun _ => ?_
  refine (write_apart _ _).bind fun _ => (printf_apart _).bind fun _ => ?_
  refine (write_apart _ _).bind fun _ => (printf_apart _).bind fun _ => ?_
  exact (write_apart _ _).bind fun _ => printf_apart _

theorem refused_apart (cause errnum shortmsg longmsg : Bytes) : Apart (do
    requestError cause errnum shortmsg longmsg arrival dispatch stats
    return stats) :=
  (requestError_apart _ _ _ _).bind fun _ => apart_pure _

theorem readhdrsLoop_apart (fuel : Nat) (buf : Bytes) (rio : Rio) :
    Apart (readhdrsLoop fuel buf rio) := by
  induction fuel generalizing buf rio with
  | zero => exact fun _ => trivial
  | succ fuel ih =>
      rw [readhdrsLoop]
      split
      · exact apart_pure rio
      · exact (readline_apart _ _ _).bind fun r => ih r.2.1 r.2.2

theorem requestServeDynamic_apart (filename cgiargs : Bytes) :
    Apart (requestServeDynamic filename cgiargs arrival dispatch stats) := by
  rw [requestServeDynamic]
  refine (write_apart _ _).bind fun _ child => ?_
  exact ⟨trivial, fun pid => ⟨rfl, fun _ => trivial⟩⟩

theorem requestServeStatic_apart (filename : Bytes) (filesize : Int) :
    Apart (requestServeStatic filename filesize arrival dispatch stats) := by
  have unread (longmsg : Bytes) (fd : Int) (stats : ThreadsStats) : Apart (do
      Close fd
      requestError filename (str "403") (str "Forbidden") longmsg arrival dispatch stats
      return stats) := (close_apart _).bind fun _ => refused_apart _ _ _ _
  rw [requestServeStatic]
  refine Apart.bind (apart_ask fun _ => trivial) fun srcfd => ?_
  dsimp only
  split
  · exact refused_apart _ _ _ _
  split
  · exact unread _ _ _
  refine Apart.bind (apart_ask fun _ => trivial) fun srcp => ?_
  cases srcp with
  | none => exact unread _ _ _
  | some srcp =>
      refine (close_apart _).bind fun _ => (write_apart _ _).bind fun _ => ?_
      refine (write_apart _ _).bind fun _ => ?_
      exact Apart.bind (apart_ask fun _ => trivial) fun _ => apart_pure _

theorem requestGet_apart (target : Target) : Apart (requestGet target arrival dispatch stats) := by
  rw [requestGet]
  refine Apart.bind (apart_ask fun _ => trivial) fun found => ?_
  cases found with
  | none => exact refused_apart _ _ _ _
  | some sbuf =>
      dsimp only
      split
      · split
        · exact refused_apart _ _ _ _
        · refine (requestServeStatic_apart _ _).bind fun _ => ?_
          exact (addToLog_apart _ _).bind fun _ => apart_pure _
      · split
        · exact refused_apart _ _ _ _
        · refine (requestServeDynamic_apart _ _).bind fun _ => ?_
          exact (addToLog_apart _ _).bind fun _ => apart_pure _

theorem requestHandle_apart (fuel : Nat) (buf : Bytes) (old : Locals) :
    Apart (requestHandle fuel buf old arrival dispatch stats) := by
  rw [requestHandle]
  refine (readline_apart _ _ _).bind fun r => ?_
  dsimp only
  split
  · exact apart_pure _
  split
  · refine Apart.bind ?_ fun _ => requestGet_apart _
    exact (readline_apart _ _ _).bind fun r => readhdrsLoop_apart _ _ _
  split
  · refine Apart.bind ?_ fun _ => apart_pure _
    refine Apart.bind (apart_ask fun _ => trivial) fun r => ?_
    exact (write_apart _ _).bind fun _ => write_apart _ _
  · exact refused_apart _ _ _ _

end

variable {n cap : Nat} {junk : Nat → Request} {byte : Nat → ServerLog.Byte} {listenfd : Int}
  {s s' : System n} {i : Fin n} {rest : Fin n → Option (Calls ThreadsStats)}
  {children children' : Nat → Option (Child n)}

def Awaited (rest : Fin n → Option (Calls ThreadsStats)) (children : Nat → Option (Child n)) :
    Prop :=
  ∀ i x, rest i = some x → ∃ child, Waits x child ∧ ∀ pid, child = some pid → (children pid).isSome

theorem Awaited.mono (h : Awaited rest children)
    (hc : ∀ pid, (children pid).isSome → (children' pid).isSome) : Awaited rest children' := by
  intro i x hx
  obtain ⟨child, hw, hmade⟩ := h i x hx
  exact ⟨child, hw, fun pid hpid => hc pid (hmade pid hpid)⟩

theorem Awaited.update (h : Awaited rest children) {x : Calls ThreadsStats} {child : Option Nat}
    (hw : Waits x child) (hmade : ∀ pid, child = some pid → (children pid).isSome) :
    Awaited (Function.update rest i (some x)) children := by
  intro j y hy
  by_cases hj : j = i
  · subst j
    rw [Function.update_self] at hy
    obtain rfl := Option.some.inj hy
    exact ⟨child, hw, hmade⟩
  · rw [Function.update_of_ne hj] at hy
    exact h j y hy

theorem Awaited.leave (h : Awaited rest children) :
    Awaited (Function.update rest i none) children := by
  intro j y hy
  by_cases hj : j = i
  · subst j
    rw [Function.update_self] at hy
    cases hy
  · rw [Function.update_of_ne hj] at hy
    exact h j y hy

theorem Awaited.goOn (h : Awaited rest children) {c : Call} {k : c.Answer → Calls ThreadsStats}
    (hr : rest i = some (.call c k)) (a : c.Answer) (hc : ∀ child, waits.next child c a = child) :
    Awaited (Function.update rest i (some (k a))) children := by
  obtain ⟨child, ⟨-, hk⟩, hmade⟩ := h i _ hr
  have hnext := hk a
  rw [hc] at hnext
  exact h.update hnext hmade

theorem Awaited.fork (h : Awaited rest children) {cgiargs filename : Bytes}
    {k : Nat → Calls ThreadsStats} (hr : rest i = some (.call (.fork cgiargs filename) k))
    (pid : Nat) (new : Child n) :
    Awaited (Function.update rest i (some (k pid))) (Function.update children pid (some new)) := by
  obtain ⟨child, ⟨-, hk⟩, -⟩ := h i _ hr
  have hgrows (pid' : Nat) (hp : (children pid').isSome) :
      (Function.update children pid (some new) pid').isSome := by
    by_cases heq : pid' = pid
    · rw [heq, Function.update_self]
      rfl
    · rwa [Function.update_of_ne heq]
  have hnext : Waits (k pid) (some pid) := hk pid
  refine (h.mono hgrows).update hnext fun pid' hpid => ?_
  obtain rfl := Option.some.inj hpid
  rw [Function.update_self]
  rfl

theorem queue_awaited {τ : QueueState n} {t : Tid n} {a : Frame} {p q : RequestQueue.Pc}
    (he : s.queueEffect τ a t p q = some s') (h : Awaited s.rest s.children) :
    Awaited s'.rest s'.children := by
  unfold System.queueEffect at he
  split at he
  case h_1 =>
    obtain ⟨-, hs⟩ := Option.ite_none_right_eq_some.1 he
    obtain rfl := Option.some.inj hs
    exact h
  case h_4 =>
    obtain rfl := Option.some.inj he
    exact h.update (requestHandle_apart _ _ _ none) (by simp)
  case h_5 =>
    split at he
    · obtain ⟨-, hs⟩ := Option.ite_none_right_eq_some.1 he
      obtain rfl := Option.some.inj hs
      exact h.leave
    · cases he
  case h_6 =>
    split at he
    · obtain ⟨-, hs⟩ := Option.ite_none_right_eq_some.1 he
      obtain rfl := Option.some.inj hs
      exact h
    · cases he
  all_goals
    obtain rfl := Option.some.inj he
    exact h

theorem log_awaited {μ : LogState (Fin n)} {p q : ServerLog.Pc}
    (he : s.logEffect μ i p q = some s') (h : Awaited s.rest s.children) :
    Awaited s'.rest s'.children := by
  unfold System.logEffect at he
  split at he
  case h_1 =>
    split at he
    · obtain rfl := Option.some.inj he
      exact h
    · cases he
  case h_2 =>
    split at he
    · obtain ⟨-, hs⟩ := Option.ite_none_right_eq_some.1 he
      obtain rfl := Option.some.inj hs
      exact h
    · cases he
  case h_4 | h_8 =>
    split at he
    · next hrest =>
      obtain rfl := Option.some.inj he
      exact h.goOn hrest _ fun _ => rfl
    · cases he
  case h_6 | h_7 => cases he
  all_goals
    obtain rfl := Option.some.inj he
    exact h

theorem call_awaited {connfd : Int} {c : Call} {k : c.Answer → Calls ThreadsStats} {a : Answer}
    (hr : s.rest i = some (.call c k)) (he : s.callEffect i connfd c k a = some s')
    (h : Awaited s.rest s.children) : Awaited s'.rest s'.children := by
  unfold System.callEffect at he
  split at he
  case h_2 =>
    split at he
    · obtain ⟨-, hs⟩ := Option.ite_none_right_eq_some.1 he
      obtain rfl := Option.some.inj hs
      obtain ⟨child, ⟨-, hk⟩, hmade⟩ := h i _ hr
      exact h.update ⟨trivial, hk⟩ hmade
    · cases he
  case h_5 =>
    obtain ⟨-, hs⟩ := Option.ite_none_right_eq_some.1 he
    obtain rfl := Option.some.inj hs
    exact h.goOn hr _ fun _ => rfl
  case h_10 =>
    obtain rfl := Option.some.inj he
    exact h.fork hr _ _
  case h_11 =>
    split at he
    · obtain ⟨-, hs⟩ := Option.ite_none_right_eq_some.1 he
      obtain rfl := Option.some.inj hs
      exact h.goOn hr _ fun _ => rfl
    · cases he
  case h_12 => cases he
  all_goals
    obtain rfl := Option.some.inj he
    exact h.goOn hr _ fun _ => rfl

theorem child_awaited {pid : Nat} {m : ChildMove} (he : s.childEffect pid m = some s')
    (h : Awaited s.rest s.children) : Awaited s'.rest s'.children := by
  have hkeeps (pid : Nat) (new : Child n) (pid' : Nat) (hp : (s.children pid').isSome) :
      (Function.update s.children pid (some new) pid').isSome := by
    by_cases heq : pid' = pid
    · rw [heq, Function.update_self]
      rfl
    · rwa [Function.update_of_ne heq]
  unfold System.childEffect at he
  split at he
  · cases he
  split at he
  · cases he
  cases m with
  | output fd bytes =>
      dsimp only at he
      split at he
      · obtain ⟨-, hs⟩ := Option.ite_none_right_eq_some.1 he
        obtain rfl := Option.some.inj hs
        exact h
      · obtain rfl := Option.some.inj he
        exact h
  | dup2 oldfd newfd =>
      obtain ⟨-, hs⟩ := Option.ite_none_right_eq_some.1 he
      obtain rfl := Option.some.inj hs
      exact h.mono (hkeeps _ _)
  | fork | close | stop | resume | exit =>
      obtain rfl := Option.some.inj he
      exact h.mono (hkeeps _ _)

theorem awaited_reachable (h : Reachable (start n junk cap byte listenfd) s) :
    Awaited s.rest s.children := by
  refine h.invariant (I := fun s => Awaited s.rest s.children) nofun fun s s' _ ih hs => ?_
  cases hs with
  | queue t a live h he => exact queue_awaited he ih
  | log i live h he => exact log_awaited he ih
  | call i a live hp hr he => exact call_awaited hr he ih
  | child pid m he => exact child_awaited he ih
  | queueSpurious | logSpurious => exact ih

def Bounded (fds : Descriptors n) : Prop := ∃ bound, ∀ fd, bound ≤ fd → fds fd = none

theorem Bounded.update {fds : Descriptors n} (h : Bounded fds) (fd : Int) (o : Option (Object n)) :
    Bounded (Function.update fds fd o) := by
  obtain ⟨bound, h⟩ := h
  refine ⟨max bound (fd + 1), fun fd' hfd => ?_⟩
  rw [Function.update_of_ne (by omega)]
  exact h fd' (by omega)

theorem Bounded.free {fds : Descriptors n} (h : Bounded fds) : ∃ fd, 0 ≤ fd ∧ fds fd = none := by
  obtain ⟨bound, h⟩ := h
  exact ⟨max bound 0, le_max_right _ _, h _ (le_max_left _ _)⟩

theorem bounded_reachable (h : Reachable (start n junk cap byte listenfd) s) : Bounded s.fds := by
  refine h.changes (I := fun s => Bounded s.fds) ?_ fun s s' _ _ ih hc => ?_
  · refine ⟨max 3 (listenfd + 1), fun fd hfd => ?_⟩
    exact if_neg (by omega)
  · cases hc with
    | accepted | closed | opened | fileClosed => exact ih.update _ _
    | _ => exact ih

/-- A worker waits for its program, which runs, or writes more than its buffer has. -/
inductive HeldUp (s : System n) (i : Fin n) : Prop
  | program {pid k child} (rest : s.rest i = some (.call (.waitPid pid) k))
      (found : s.children pid = some child) (runs : child.ended = false ∧ child.stopped = false)
  | short {m k} (rest : s.rest i = some (.call (.rioWriten [] m) k)) (more : 0 < m)

theorem call_answered (hcap : 1 ≤ cap) (h : Reachable (start n junk cap byte listenfd) s)
    {req : Request} (hlook : s.look (.worker i) = .handling req) {c : Call}
    {k : c.Answer → Calls ThreadsStats} (hr : s.rest i = some (.call c k)) (hc : atLog c = false) :
    (∃ a s', s.callEffect i req.connfd c k a = some s') ∨ HeldUp s i := by
  cases c with
  | rioReadlineb rio usrbuf maxlen => exact .inl ⟨.line 0 [] rio, _, rfl⟩
  | rioWriten usrbuf m =>
      cases m with
      | zero => exact .inl ⟨.done, _, rfl⟩
      | succ m =>
          cases usrbuf with
          | nil => exact .inr (.short hr (Nat.succ_pos m))
          | cons b bs =>
              have hreq : inService (s.look (.worker i)) = some req := by rw [hlook]; rfl
              have hconn := (tables_reachable hcap h).conns.served hreq
              refine .inl ⟨.wrote 1, ?_⟩
              simp [System.callEffect, hconn]
  | stat filename => exact .inl ⟨.stat none, _, rfl⟩
  | openFile pathname =>
      obtain ⟨fd, hpos, hfree⟩ := (bounded_reachable h).free
      exact .inl ⟨.opened fd, _, if_pos ⟨hpos, hfree⟩⟩
  | mmap len fd => exact .inl ⟨.mapped [], _, rfl⟩
  | waitPid pid =>
      obtain ⟨child, ⟨hallows, -⟩, hmade⟩ := awaited_reachable h i _ hr
      obtain ⟨new, hnew⟩ := Option.isSome_iff_exists.1 (hmade pid hallows)
      by_cases hruns : new.ended ∨ new.stopped
      · refine .inl ⟨.done, ?_⟩
        simp [System.callEffect, hnew, hruns]
      · exact .inr (.program hr hnew (by simpa using hruns))
  | getLog | addToLog => cases hc
  | close | munmap | printf | fork => exact .inl ⟨.done, _, rfl⟩

end WebServer.PendingCalls
