import WebServer.QueueRefinement
import WebServer.ServerLog
import WebServer.Transcripts

namespace WebServer.Server

open Monitor Message Process Segel RequestCalls Sessions
open Transcripts (Task Transcript)
open QueueRefinement (enqueued dequeued)
open RequestHandle (Locals)
open RequestQueue (QueueState Tid ThreadsStats Request Handler Outcome)
open ServerLog (LogState int32)

variable {n : Nat}

/-- What an open descriptor stands for. Connections are numbered as they are accepted;
a file belongs to the worker that has opened it. -/
inductive Object (n : Nat)
  | other
  | connection (k : Nat)
  | file (i : Fin n)
  deriving DecidableEq

abbrev Descriptors (n : Nat) := Int → Option (Object n)

/-- A process that `fork` has made for request `serves`, in the server or in a program. -/
structure Child (n : Nat) where
  fds : Descriptors n
  serves : Nat
  ended : Bool
  stopped : Bool

/-- What happens to the connections, by their numbers, to the children, by their pids,
and at the log on behalf of a request. -/
inductive Event (n : Nat)
  | accepted (k : Nat) (connfd : Int)
  | enqueued (k : Nat)
  | dequeued (k : Nat) (i : Fin n)
  | returned (k : Nat) (i : Fin n)
  | closed (k : Nat) (i : Fin n)
  | finished (k : Nat) (i : Fin n)
  | sent (k : Nat) (bytes : Bytes)
  | forked (k pid : Nat)
  | spawned (pid pid' : Nat)
  | shut (pid : Nat) (fd : Int)
  | duplicated (pid : Nat) (oldfd newfd : Int)
  | ended (pid : Nat)
  | reads (k : Nat)
  | got (k : Nat) (size : Int) (dst : Bytes)
  | logged (k : Nat) (entry : Bytes)
  deriving DecidableEq

theorem lawfulBEqEvent : LawfulBEq (Event n) := inferInstance

attribute [instance] lawfulBEqEvent

/-- Of a worker in `requestHandle`, `rest` is what is left of the call and `session`
what it has done. `serving` is the connection that a worker has taken last. Of a
connection, `task` is what `requestHandle` was called with for it, and `made` what the
calls in there have answered, sent and logged so far. -/
structure System (n : Nat) where
  queue : QueueState n
  log : LogState (Fin n)
  rest : Fin n → Option (Calls ThreadsStats)
  session : Fin n → Session
  serving : Fin n → Nat
  task : Nat → Task
  made : Nat → Transcript
  fds : Descriptors n
  accepts : Nat
  children : Nat → Option (Child n)
  forks : Nat
  trace : List (Event n)

/-- At the queue a call may end in any way; what it does is in `rest`. -/
def anyOutcome : Handler Outcome := fun _ _ _ _ o => some o

abbrev queueMachine (n : Nat) := RequestQueue.machine n anyOutcome

abbrev logMachine (n : Nat) := ServerLog.machine (Fin n)

def System.enqueued (s : System n) : List Request := QueueRefinement.enqueued s.queue.data.trace

def System.dequeued (s : System n) : List Request := QueueRefinement.dequeued s.queue.data.trace

structure Frame where
  fuel : Nat
  buf : Bytes
  old : Locals

def atMalloc : ServerLog.Pc → Bool
  | .get _ .malloc | .add _ _ (.malloc _) => true
  | _ => false

/-- `accept` answers a descriptor that is not open. -/
def System.queueEffect (s : System n) (τ : QueueState n) (a : Frame) :
    Tid n → RequestQueue.Pc → RequestQueue.Pc → Option (System n)
  | .main, .main .accept, .main (.lock connfd) =>
      if s.fds connfd = none then
        some { s with
          queue := τ, fds := Function.update s.fds connfd (some (.connection s.accepts)),
          accepts := s.accepts + 1, trace := s.trace ++ [.accepted s.accepts connfd] }
      else none
  | .main, .main (.enqueue _ .dequeueingSize), .main (.enqueue _ .signal) =>
      some { s with queue := τ, trace := s.trace ++ [.enqueued s.enqueued.length] }
  | .worker i, .worker _ (.dequeue (.decrement _)), .worker _ (.dequeue (.time _)) =>
      some { s with
        queue := τ, serving := Function.update s.serving i s.dequeued.length,
        trace := s.trace ++ [.dequeued s.dequeued.length i] }
  | .worker i, .worker _ (.timersub _ _), .worker stats (.handle req dispatch) =>
      let x := requestHandle a.fuel a.buf a.old req.arrivalTime dispatch stats
      some { s with
        queue := τ, rest := Function.update s.rest i (some x),
        session := Function.update s.session i .new
        task := Function.update s.task (s.serving i) ⟨a.fuel, a.old, req.arrivalTime, dispatch, stats⟩
        made := Function.update s.made (s.serving i) .new }
  | .worker i, .worker _ (.handle _ _), .worker stats (.close _) =>
      match s.rest i with
      | some (.ret stats') =>
          if stats' = stats then
            some { s with
              queue := τ, rest := Function.update s.rest i none,
              trace := s.trace ++ [.returned (s.serving i) i] }
          else none
      | _ => none
  -- a call that ends the process, also where it is at the log
  | .worker i, .worker _ (.handle _ _), .worker _ (.handle _ _) =>
      match s.rest i with
      | some (.call c _) =>
          if c.wrapped ∨ atMalloc (s.log.place i) then some { s with queue := τ } else none
      | _ => none
  | .worker i, .worker _ (.close req), .worker _ (.finish .lock) =>
      some { s with
        queue := τ, fds := Function.update s.fds req.connfd none,
        trace := s.trace ++ [.closed (s.serving i) i] }
  | .worker i, .worker _ (.finish .size), .worker _ (.finish .signal) =>
      some { s with queue := τ, trace := s.trace ++ [.finished (s.serving i) i] }
  | _, _, _ => some { s with queue := τ }

def System.goOn (s : System n) (i : Fin n) (c : Call) (k : c.Answer → Calls ThreadsStats)
    (a : c.Answer) : System n :=
  { s with
    rest := Function.update s.rest i (some (k a)),
    session := Function.update s.session i (protocol.next (s.session i) c a)
    made := Function.update s.made (s.serving i) ((s.made (s.serving i)).next c a) }

/-- A worker calls the log where its request does, and is answered what the log returns.
A `Malloc` that fails ends the process, in `queueEffect`. -/
def System.logEffect (s : System n) (μ : LogState (Fin n)) (i : Fin n) :
    ServerLog.Pc → ServerLog.Pc → Option (System n)
  | .idle, .get _ _ =>
      match s.rest i with
      | some (.call .getLog _) => some { s with log := μ }
      | _ => none
  | .idle, .addTest _ data m =>
      match s.rest i with
      | some (.call (.addToLog bs len) _) =>
          if data = some bs ∧ m.1 = int32 len then some { s with log := μ } else none
      | _ => none
  | .get _ .incReaders, .get _ .unlock =>
      some { s with log := μ, trace := s.trace ++ [.reads (s.serving i)] }
  | .get _ (.ret dst m), .idle =>
      match s.rest i with
      | some (.call .getLog k) =>
          some { s.goOn i .getLog k (m, dst) with
            log := μ, trace := s.trace ++ [.got (s.serving i) m dst] }
      | _ => none
  | .add _ e .clear, .add _ _ .testWaiting =>
      some { s with log := μ, trace := s.trace ++ [.logged (s.serving i) e.bytes] }
  | .get _ .malloc, .get _ .malloc | .add _ _ (.malloc _), .add _ _ (.malloc _) => none
  | .addRet _, .idle =>
      match s.rest i with
      | some (.call (.addToLog bs len) k) => some { s.goOn i (.addToLog bs len) k () with log := μ }
      | _ => none
  | _, _ => some { s with log := μ }

inductive Answer
  | line (n : Int) (buf : Bytes) (rio : Rio)
  | wrote (j : Nat)
  | stat (sbuf : Option StatBuf)
  | opened (fd : Int)
  | mapped (srcp : Bytes)
  | done

/-- One `write` of the loop of `rio_writen` takes `j` bytes. `open` answers a descriptor
that is not open, and `waitpid` once the child has ended or is stopped. -/
def System.callEffect (s : System n) (i : Fin n) (connfd : Int) :
    (c : Call) → (c.Answer → Calls ThreadsStats) → Answer → Option (System n)
  | .rioReadlineb rio usrbuf maxlen, k, .line m buf rio' =>
      some (s.goOn i (.rioReadlineb rio usrbuf maxlen) k (m, buf, rio'))
  | .rioWriten usrbuf m, k, .wrote j =>
      match s.fds connfd with
      | some (.connection c) =>
          if 0 < j ∧ j ≤ m ∧ j ≤ usrbuf.length then
            some { s with
              rest := Function.update s.rest i (some (.call (.rioWriten (usrbuf.drop j) (m - j)) k)),
              session := Function.update s.session i
                { s.session i with sent := (s.session i).sent ++ usrbuf.take j },
              made := Function.update s.made (s.serving i)
                { s.made (s.serving i) with
                  sent := (s.made (s.serving i)).sent ++ usrbuf.take j },
              trace := s.trace ++ [.sent c (usrbuf.take j)] }
          else none
      | _ => none
  | .rioWriten usrbuf 0, k, .done => some (s.goOn i (.rioWriten usrbuf 0) k ())
  | .stat filename, k, .stat sbuf => some (s.goOn i (.stat filename) k sbuf)
  | .openFile pathname, k, .opened fd =>
      if 0 ≤ fd ∧ s.fds fd = none then
        some { s.goOn i (.openFile pathname) k fd with
          fds := Function.update s.fds fd (some (.file i)) }
      else none
  | .close fd, k, .done =>
      some { s.goOn i (.close fd) k () with fds := Function.update s.fds fd none }
  | .mmap len fd, k, .mapped srcp => some (s.goOn i (.mmap len fd) k (some srcp))
  | .munmap, k, .done => some (s.goOn i .munmap k ())
  | .printf bs, k, .done => some (s.goOn i (.printf bs) k ())
  | .fork cgiargs filename, k, .done =>
      some { s.goOn i (.fork cgiargs filename) k (s.forks + 1) with
        children := Function.update s.children (s.forks + 1) (some ⟨s.fds, s.serving i, false, false⟩),
        forks := s.forks + 1, trace := s.trace ++ [.forked (s.serving i) (s.forks + 1)] }
  | .waitPid pid, k, .done =>
      match s.children pid with
      | some child =>
          if child.ended ∨ child.stopped then some (s.goOn i (.waitPid pid) k ()) else none
      | none => none
  | _, _, _ => none

/-- A child makes its connection its standard output and runs a program, which keeps the
descriptors of the child. What the program does with them is up to it, but it writes to no
other client's connection. -/
inductive ChildMove
  | dup2 (oldfd newfd : Int)
  | output (fd : Int) (bytes : Bytes)
  | fork
  | close (fd : Int)
  | stop
  | resume
  | exit

def System.childEffect (s : System n) (pid : Nat) (m : ChildMove) : Option (System n) :=
  match s.children pid with
  | none => none
  | some child =>
    let become (child' : Child n) := Function.update s.children pid (some child')
    if child.ended then none
    else match m with
    | .dup2 oldfd newfd =>
        if child.fds oldfd ≠ none then
          some { s with
            children := become
              { child with fds := Function.update child.fds newfd (child.fds oldfd) }
            trace := s.trace ++ [.duplicated pid oldfd newfd] }
        else none
    | .output fd bytes =>
        match child.fds fd with
        | some (.connection k) =>
            if k = child.serves then some { s with trace := s.trace ++ [.sent k bytes] } else none
        | _ => some s
    | .fork => some { s with
        children := Function.update s.children (s.forks + 1)
          (some { child with stopped := false })
        forks := s.forks + 1
        trace := s.trace ++ [.spawned pid (s.forks + 1)] }
    | .close fd => some { s with
        children := become { child with fds := Function.update child.fds fd none }
        trace := s.trace ++ [.shut pid fd] }
    | .stop => some { s with children := become { child with stopped := true } }
    | .resume => some { s with children := become { child with stopped := false } }
    | .exit => some { s with
        children := become { child with ended := true }
        trace := s.trace ++ [.ended pid] }

/-- The children go on when the server has ended. -/
inductive Step : System n → System n → Prop
  | queue {s s' τ} (t : Tid n) (a : Frame) (live : s.queue.data.running = true)
      (h : Exec (queueMachine n) t s.queue τ)
      (he : s.queueEffect τ a t (s.queue.place t) (τ.place t) = some s') : Step s s'
  | queueSpurious {s τ} (u : Tid n) (live : s.queue.data.running = true)
      (h : Spurious u s.queue τ) : Step s { s with queue := τ }
  | log {s s' μ} (i : Fin n) (live : s.queue.data.running = true)
      (h : Exec (logMachine n) i s.log μ)
      (he : s.logEffect μ i (s.log.place i) (μ.place i) = some s') : Step s s'
  | logSpurious {s μ} (u : Fin n) (live : s.queue.data.running = true)
      (h : Spurious u s.log μ) : Step s { s with log := μ }
  | call {s s' stats req dispatch c k} (i : Fin n) (a : Answer)
      (live : s.queue.data.running = true)
      (hp : s.queue.place (.worker i) = .worker stats (.handle req dispatch))
      (hr : s.rest i = some (.call c k)) (he : s.callEffect i req.connfd c k a = some s') : Step s s'
  | child {s s'} (pid : Nat) (m : ChildMove) (he : s.childEffect pid m = some s') : Step s s'

def start (n : Nat) (junk : Nat → Request) (cap : Nat) (byte : Nat → ServerLog.Byte)
    (listenfd : Int) : System n where
  queue := RequestQueue.start n junk cap
  log := ServerLog.start (Fin n) byte
  rest _ := none
  session _ := .new
  serving _ := 0
  task _ := .blank
  made _ := .new
  fds fd := if fd = 0 ∨ fd = 1 ∨ fd = 2 ∨ fd = listenfd then some .other else none
  accepts := 0
  children _ := none
  forks := 0
  trace := []

inductive Reachable (s₀ : System n) : System n → Prop
  | start : Reachable s₀ s₀
  | next {s s'} : Reachable s₀ s → Step s s' → Reachable s₀ s'

theorem Reachable.trans {s₀ s s' : System n} (h : Reachable s₀ s) (h' : Reachable s s') :
    Reachable s₀ s' := by
  induction h' with
  | start => exact h
  | next _ hs ih => exact ih.next hs

theorem Reachable.invariant {s₀ s : System n} {I : System n → Prop} (h : Reachable s₀ s)
    (start : I s₀) (step : ∀ s s', Reachable s₀ s → I s → Step s s' → I s') : I s := by
  induction h with
  | start => exact start
  | next hr hs ih => exact step _ _ hr ih hs

inductive Move (n : Nat)
  | queue (t : Tid n) (e : RequestQueue.Choice Outcome) (a : Frame)
  | log (i : Fin n) (e : ServerLog.Choice)
  | call (i : Fin n) (a : Answer)
  | child (pid : Nat) (m : ChildMove)

def System.turn (s : System n) : Move n → Option (System n)
  | .queue t e a =>
      if s.queue.data.running then
        ((queueMachine n).turn t e s.queue).bind fun τ =>
          s.queueEffect τ a t (s.queue.place t) (τ.place t)
      else none
  | .log i e =>
      if s.queue.data.running then
        ((logMachine n).turn i e s.log).bind fun μ => s.logEffect μ i (s.log.place i) (μ.place i)
      else none
  | .call i a =>
      if s.queue.data.running then
        match s.queue.place (.worker i), s.rest i with
        | .worker _ (.handle req _), some (.call c k) => s.callEffect i req.connfd c k a
        | _, _ => none
      else none
  | .child pid m => s.childEffect pid m

theorem turn_step {s s' : System n} {m : Move n} (h : s.turn m = some s') : Step s s' := by
  cases m with
  | queue t e a =>
      obtain ⟨live, h⟩ := Option.ite_none_right_eq_some.1 h
      obtain ⟨τ, hτ, he⟩ := Option.bind_eq_some_iff.1 h
      exact .queue t a live (turn_exec hτ) he
  | log i e =>
      obtain ⟨live, h⟩ := Option.ite_none_right_eq_some.1 h
      obtain ⟨μ, hμ, he⟩ := Option.bind_eq_some_iff.1 h
      exact .log i live (turn_exec hμ) he
  | call i a =>
      obtain ⟨live, h⟩ := Option.ite_none_right_eq_some.1 h
      split at h
      · next hp hr => exact .call i a live hp hr h
      · cases h
  | child pid m => exact .child pid m h

def System.replay : List (Move n) → System n → Option (System n)
  | [], s => some s
  | m :: rest, s => (s.turn m).bind (System.replay rest)

def Frame.empty : Frame := ⟨0, [], ⟨[], [], [], [], [], 0, []⟩⟩

def arrive (connfd : Int) : List (Move n) :=
  let go (e : RequestQueue.Choice Outcome) : Move n := .queue .main e .empty
  go (.accepted connfd) :: List.replicate 3 (go .ok) ++ go (.time ⟨0, 0⟩) :: List.replicate 9 (go .ok)

def take (i : Fin n) (a : Frame) : List (Move n) :=
  let go (e : RequestQueue.Choice Outcome) : Move n := .queue (.worker i) e a
  List.replicate 5 (go .ok) ++ go (.time ⟨0, 0⟩) :: List.replicate 2 (go .ok)

def leave (i : Fin n) (stats : ThreadsStats) : List (Move n) :=
  [.queue (.worker i) (.script (.returned stats)) .empty, .queue (.worker i) .ok .empty]

theorem replay_reachable {schedule : List (Move n)} {s s' : System n}
    (h : System.replay schedule s = some s') : Reachable s s' := by
  induction schedule generalizing s with
  | nil =>
      obtain rfl := by simpa [System.replay] using h
      exact .start
  | cons m rest ih =>
      obtain ⟨υ, hυ, hs⟩ := Option.bind_eq_some_iff.1 h
      exact (Reachable.start.next (turn_step hυ)).trans (ih hs)

theorem replay_ends {schedule : List (Move n)} {s : System n} {p : System n → Bool}
    (h : (System.replay schedule s).any p = true) : ∃ s', Reachable s s' ∧ p s' = true := by
  obtain ⟨s', hs, hp⟩ := (Option.any_eq_true _ _).1 h
  exact ⟨s', replay_reachable hs, hp⟩

end WebServer.Server
