import Mathlib.Data.Fintype.Sum
import Mathlib.Tactic.DeriveFintype
import WebServer.MonitorRules

namespace WebServer.RequestQueue

open Monitor

structure Timeval where
  sec : Int
  usec : Int
  deriving DecidableEq

/-- `timersub` of `sys/time.h`. -/
def timersub (a b : Timeval) : Timeval :=
  if a.usec - b.usec < 0 then ⟨a.sec - b.sec - 1, a.usec - b.usec + 1000000⟩
  else ⟨a.sec - b.sec, a.usec - b.usec⟩

structure Request where
  connfd : Int
  arrivalTime : Timeval
  deriving DecidableEq

structure ThreadsStats where
  id : Int
  statReq : Int
  dynmReq : Int
  postReq : Int
  totalReq : Int
  deriving DecidableEq

inductive QueueCond
  | notFull
  | notEmpty
  deriving DecidableEq

structure Queue where
  buffer : Nat → Request
  capacity : Nat
  size : Int
  front : Nat
  rear : Nat
  dequeueingSize : Int

inductive Tid (n : Nat)
  | main
  | worker (i : Fin n)
  deriving DecidableEq, Fintype

inductive Event (n : Nat)
  | enqueued (r : Request)
  | dequeued (t : Tid n) (r : Request)
  | returned (t : Tid n) (r : Request)
  | closed (t : Tid n) (r : Request)
  | finished (t : Tid n)
  deriving DecidableEq

/-- `running` ends with a call of `exit`. -/
structure Shared (n : Nat) where
  queue : Queue
  running : Bool
  trace : List (Event n)

/-- How a call of `requestHandle` ends, if it does. -/
inductive Outcome
  | returned (stats : ThreadsStats)
  | exited

/-- `requestHandle` with its arguments, run against what the connection and the
system do during the call. -/
abbrev Handler (Script : Type) :=
  (connfd : Int) → (arrival dispatch : Timeval) → ThreadsStats → Script → Option Outcome

inductive Choice (Script : Type)
  | accepted (connfd : Int)
  | time (now : Timeval)
  | script (s : Script)
  | ok
  | failed

/-- The answers of calls that succeed. -/
def Choice.works {Script : Type} : Choice Script → Bool
  | .failed => false
  | _ => true

inductive EnqueuePc
  | lock | check | wait | connfd | arrival | rear | size | dequeueingSize | signal | unlock

inductive DequeuePc
  | lock | check | wait | read
  | front (req : Request)
  | decrement (req : Request)
  | time (req : Request)
  | unlock (req : Request) (now : Timeval)

inductive FinishPc
  | lock | size | signal | unlock

inductive MainPc
  | accept
  | lock (connfd : Int)
  | check (connfd : Int)
  | wait (connfd : Int)
  | unlock (connfd : Int)
  | stamp (connfd : Int)
  | enqueue (r : Request) (s : EnqueuePc)

inductive WorkerPc
  | dequeue (s : DequeuePc)
  | timersub (req : Request) (now : Timeval)
  | handle (req : Request) (dispatch : Timeval)
  | close (req : Request)
  | finish (s : FinishPc)

inductive Pc
  | main (p : MainPc)
  | worker (stats : ThreadsStats) (p : WorkerPc)

variable {n : Nat} {Script : Type}

abbrev QueueInstr (n : Nat) (Script : Type) := Instr QueueCond Pc (Shared n) (Choice Script)

def stmt (f : Shared n → Shared n × Pc) : QueueInstr n Script :=
  .act fun d e => match e with
    | .ok => some (f d)
    | _ => none

def enqueue (r : Request) : EnqueuePc → QueueInstr n Script
  | .lock => .lock (.main (.enqueue r .check))
  | .check => stmt fun d =>
      (d, .main (.enqueue r (if d.queue.size = d.queue.capacity then .wait else .connfd)))
  | .wait => .wait .notFull (.main (.enqueue r .check))
  | .connfd => stmt fun d =>
      let slot := { d.queue.buffer d.queue.rear with connfd := r.connfd }
      ({ d with queue.buffer := Function.update d.queue.buffer d.queue.rear slot },
        .main (.enqueue r .arrival))
  | .arrival => stmt fun d =>
      let slot := { d.queue.buffer d.queue.rear with arrivalTime := r.arrivalTime }
      ({ d with queue.buffer := Function.update d.queue.buffer d.queue.rear slot },
        .main (.enqueue r .rear))
  | .rear => stmt fun d =>
      ({ d with queue.rear := (d.queue.rear + 1) % d.queue.capacity }, .main (.enqueue r .size))
  | .size => stmt fun d =>
      ({ d with queue.size := d.queue.size + 1 }, .main (.enqueue r .dequeueingSize))
  | .dequeueingSize => stmt fun d =>
      ({ d with queue.dequeueingSize := d.queue.dequeueingSize + 1,
                trace := d.trace ++ [.enqueued r] }, .main (.enqueue r .signal))
  | .signal => .signal .notEmpty (.main (.enqueue r .unlock))
  | .unlock => .unlock (.main .accept)

def dequeue (t : Tid n) (stats : ThreadsStats) : DequeuePc → QueueInstr n Script
  | .lock => .lock (.worker stats (.dequeue .check))
  | .check => stmt fun d =>
      (d, .worker stats (.dequeue (if d.queue.dequeueingSize = 0 then .wait else .read)))
  | .wait => .wait .notEmpty (.worker stats (.dequeue .check))
  | .read => stmt fun d => (d, .worker stats (.dequeue (.front (d.queue.buffer d.queue.front))))
  | .front req => stmt fun d =>
      ({ d with queue.front := (d.queue.front + 1) % d.queue.capacity },
        .worker stats (.dequeue (.decrement req)))
  | .decrement req => stmt fun d =>
      ({ d with queue.dequeueingSize := d.queue.dequeueingSize - 1,
                trace := d.trace ++ [.dequeued t req] }, .worker stats (.dequeue (.time req)))
  | .time req => .act fun d e => match e with
      | .time now => some (d, .worker stats (.dequeue (.unlock req now)))
      | _ => none
  | .unlock req now => .unlock (.worker stats (.timersub req now))

def finishHandling (t : Tid n) (stats : ThreadsStats) : FinishPc → QueueInstr n Script
  | .lock => .lock (.worker stats (.finish .size))
  | .size => stmt fun d =>
      ({ d with queue.size := d.queue.size - 1, trace := d.trace ++ [.finished t] },
        .worker stats (.finish .signal))
  | .signal => .signal .notFull (.worker stats (.finish .unlock))
  | .unlock => .unlock (.worker stats (.dequeue .lock))

def mainLoop : MainPc → QueueInstr n Script
  | .accept => .act fun d e => match e with
      | .accepted connfd => some (d, .main (.lock connfd))
      | .failed => some ({ d with running := false }, .main .accept)
      | _ => none
  | .lock c => .lock (.main (.check c))
  | .check c => stmt fun d =>
      (d, .main (if d.queue.size = d.queue.capacity then .wait c else .unlock c))
  | .wait c => .wait .notFull (.main (.check c))
  | .unlock c => .unlock (.main (.stamp c))
  | .stamp c => .act fun d e => match e with
      | .time now => some (d, .main (.enqueue ⟨c, now⟩ .lock))
      | _ => none
  | .enqueue r s => enqueue r s

def workerThread (handle : Handler Script) (t : Tid n) (stats : ThreadsStats) :
    WorkerPc → QueueInstr n Script
  | .dequeue s => dequeue t stats s
  | .timersub req now => stmt fun d =>
      (d, .worker stats (.handle req (timersub now req.arrivalTime)))
  | .handle req dispatch => .act fun d e => match e with
      | .script s => (handle req.connfd req.arrivalTime dispatch stats s).map fun
          | .returned stats' =>
              ({ d with trace := d.trace ++ [.returned t req] }, .worker stats' (.close req))
          | .exited => ({ d with running := false }, .worker stats (.handle req dispatch))
      | _ => none
  | .close req => .act fun d e => match e with
      | .ok => some ({ d with trace := d.trace ++ [.closed t req] }, .worker stats (.finish .lock))
      | .failed => some ({ d with running := false }, .worker stats (.close req))
      | _ => none
  | .finish s => finishHandling t stats s

def code (handle : Handler Script) (t : Tid n) : Pc → QueueInstr n Script
  | .main p => mainLoop p
  | .worker stats p => workerThread handle t stats p

abbrev QueueState (n : Nat) := State (Tid n) QueueCond Pc (Shared n)

def machine (n : Nat) (handle : Handler Script) :
    Machine (Tid n) QueueCond Pc (Shared n) (Choice Script) :=
  ⟨code handle, fun d => d.running⟩

def initQueue (junk : Nat → Request) (capacity : Nat) : Queue := ⟨junk, capacity, 0, 0, 0, 0⟩

def startPc : Tid n → Pc
  | .main => .main .accept
  | .worker i => .worker ⟨i + 1, 0, 0, 0, 0⟩ (.dequeue .lock)

def start (n : Nat) (junk : Nat → Request) (capacity : Nat) : QueueState n :=
  ⟨none, fun t => .run (startPc t), ⟨initQueue junk capacity, true, []⟩⟩

theorem goes_stmt {f : Shared n → Shared n × Pc} {d d' : Shared n} {q : Pc} :
    (stmt f : QueueInstr n Script).Goes d q d' ↔ d' = (f d).1 ∧ q = (f d).2 := by
  constructor
  · rintro ⟨e, h⟩
    cases e with
    | ok =>
        have h : f d = (d', q) := by simpa using h
        exact ⟨by rw [h], by rw [h]⟩
    | _ => simp at h
  · rintro ⟨rfl, rfl⟩
    exact ⟨.ok, rfl⟩

theorem bracketed_stmt {f : Shared n → Shared n × Pc} {holds : Pc → Bool} {p : Pc} :
    (stmt f : QueueInstr n Script).Bracketed holds p ↔ ∀ d, holds (f d).2 = holds p := by
  constructor
  · intro h d
    exact h d .ok _ _ rfl
  · intro h d e d' q hf
    obtain ⟨-, rfl⟩ := goes_stmt.1 ⟨e, hf⟩
    exact h d

theorem goes_accept {d d' : Shared n} {q : Pc}
    (h : (mainLoop .accept : QueueInstr n Script).Goes d q d') :
    (d' = d ∧ ∃ c, q = .main (.lock c)) ∨ d' = { d with running := false } ∧ q = .main .accept := by
  obtain ⟨e, h⟩ := h
  cases e with
  | accepted c =>
      obtain ⟨rfl, rfl⟩ := by simpa using h
      exact .inl ⟨rfl, c, rfl⟩
  | failed =>
      obtain ⟨rfl, rfl⟩ := by simpa using h
      exact .inr ⟨rfl, rfl⟩
  | _ => simp at h

theorem goes_stamp {c : Int} {d d' : Shared n} {q : Pc}
    (h : (mainLoop (.stamp c) : QueueInstr n Script).Goes d q d') :
    d' = d ∧ ∃ now, q = .main (.enqueue ⟨c, now⟩ .lock) := by
  obtain ⟨e, h⟩ := h
  cases e with
  | time now =>
      obtain ⟨rfl, rfl⟩ := by simpa using h
      exact ⟨rfl, now, rfl⟩
  | _ => simp at h

theorem goes_time (t : Tid n) {stats : ThreadsStats} {req : Request} {d d' : Shared n} {q : Pc}
    (h : (dequeue t stats (.time req) : QueueInstr n Script).Goes d q d') :
    d' = d ∧ ∃ now, q = .worker stats (.dequeue (.unlock req now)) := by
  obtain ⟨e, h⟩ := h
  cases e with
  | time now =>
      obtain ⟨rfl, rfl⟩ := by simpa using h
      exact ⟨rfl, now, rfl⟩
  | _ => simp at h

theorem goes_handle {handle : Handler Script} {t : Tid n} {stats : ThreadsStats} {req : Request}
    {dispatch : Timeval} {d d' : Shared n} {q : Pc}
    (h : (workerThread handle t stats (.handle req dispatch)).Goes d q d') :
    (∃ s stats', handle req.connfd req.arrivalTime dispatch stats s = some (.returned stats') ∧
      d' = { d with trace := d.trace ++ [.returned t req] } ∧ q = .worker stats' (.close req)) ∨
    (∃ s, handle req.connfd req.arrivalTime dispatch stats s = some .exited) ∧
      d' = { d with running := false } ∧ q = .worker stats (.handle req dispatch) := by
  obtain ⟨e, h⟩ := h
  cases e with
  | script s =>
      obtain ⟨o, ho, h⟩ := Option.map_eq_some_iff.1 h
      cases o with
      | returned stats' =>
          obtain ⟨rfl, rfl⟩ := by simpa using h
          exact .inl ⟨s, stats', ho, rfl, rfl⟩
      | exited =>
          obtain ⟨rfl, rfl⟩ := by simpa using h
          exact .inr ⟨⟨s, ho⟩, rfl, rfl⟩
  | _ => simp at h

theorem goes_close (handle : Handler Script) {t : Tid n} {stats : ThreadsStats} {req : Request}
    {d d' : Shared n} {q : Pc} (h : (workerThread handle t stats (.close req)).Goes d q d') :
    (d' = { d with trace := d.trace ++ [.closed t req] } ∧ q = .worker stats (.finish .lock)) ∨
      d' = { d with running := false } ∧ q = .worker stats (.close req) := by
  obtain ⟨e, h⟩ := h
  cases e with
  | ok =>
      obtain ⟨rfl, rfl⟩ := by simpa using h
      exact .inl ⟨rfl, rfl⟩
  | failed =>
      obtain ⟨rfl, rfl⟩ := by simpa using h
      exact .inr ⟨rfl, rfl⟩
  | _ => simp at h

inductive Edge (handle : Handler Script) (t : Tid n) (d : Shared n) : Pc → Pc → Shared n → Prop
  | accepted (c : Int) : Edge handle t d (.main .accept) (.main (.lock c)) d
  | acceptFailed : Edge handle t d (.main .accept) (.main .accept) { d with running := false }
  | waitLocked (c : Int) : Edge handle t d (.main (.lock c)) (.main (.check c)) d
  | waitFull (c : Int) (full : d.queue.size = d.queue.capacity) :
      Edge handle t d (.main (.check c)) (.main (.wait c)) d
  | waitRoom (c : Int) (room : d.queue.size ≠ d.queue.capacity) :
      Edge handle t d (.main (.check c)) (.main (.unlock c)) d
  | waitWoken (c : Int) : Edge handle t d (.main (.wait c)) (.main (.check c)) d
  | waitUnlocked (c : Int) : Edge handle t d (.main (.unlock c)) (.main (.stamp c)) d
  | stamped (c : Int) (now : Timeval) :
      Edge handle t d (.main (.stamp c)) (.main (.enqueue ⟨c, now⟩ .lock)) d
  | enqueueLocked (r : Request) :
      Edge handle t d (.main (.enqueue r .lock)) (.main (.enqueue r .check)) d
  | enqueueFull (r : Request) (full : d.queue.size = d.queue.capacity) :
      Edge handle t d (.main (.enqueue r .check)) (.main (.enqueue r .wait)) d
  | enqueueRoom (r : Request) (room : d.queue.size ≠ d.queue.capacity) :
      Edge handle t d (.main (.enqueue r .check)) (.main (.enqueue r .connfd)) d
  | enqueueWoken (r : Request) :
      Edge handle t d (.main (.enqueue r .wait)) (.main (.enqueue r .check)) d
  | connfdStored (r : Request) (buffer : Nat → Request) :
      Edge handle t d (.main (.enqueue r .connfd)) (.main (.enqueue r .arrival))
        { d with queue.buffer := buffer }
  | arrivalStored (r : Request) (buffer : Nat → Request) :
      Edge handle t d (.main (.enqueue r .arrival)) (.main (.enqueue r .rear))
        { d with queue.buffer := buffer }
  | rearMoved (r : Request) (rear : Nat) :
      Edge handle t d (.main (.enqueue r .rear)) (.main (.enqueue r .size))
        { d with queue.rear := rear }
  | grown (r : Request) :
      Edge handle t d (.main (.enqueue r .size)) (.main (.enqueue r .dequeueingSize))
        { d with queue.size := d.queue.size + 1 }
  | enqueued (r : Request) :
      Edge handle t d (.main (.enqueue r .dequeueingSize)) (.main (.enqueue r .signal))
        { d with queue.dequeueingSize := d.queue.dequeueingSize + 1,
                 trace := d.trace ++ [.enqueued r] }
  | enqueueSignalled (r : Request) :
      Edge handle t d (.main (.enqueue r .signal)) (.main (.enqueue r .unlock)) d
  | enqueueUnlocked (r : Request) : Edge handle t d (.main (.enqueue r .unlock)) (.main .accept) d
  | dequeueLocked (stats : ThreadsStats) :
      Edge handle t d (.worker stats (.dequeue .lock)) (.worker stats (.dequeue .check)) d
  | nonePending (stats : ThreadsStats) (none : d.queue.dequeueingSize = 0) :
      Edge handle t d (.worker stats (.dequeue .check)) (.worker stats (.dequeue .wait)) d
  | somePending (stats : ThreadsStats) (some : d.queue.dequeueingSize ≠ 0) :
      Edge handle t d (.worker stats (.dequeue .check)) (.worker stats (.dequeue .read)) d
  | dequeueWoken (stats : ThreadsStats) :
      Edge handle t d (.worker stats (.dequeue .wait)) (.worker stats (.dequeue .check)) d
  | slotRead (stats : ThreadsStats) (req : Request) :
      Edge handle t d (.worker stats (.dequeue .read)) (.worker stats (.dequeue (.front req))) d
  | frontMoved (stats : ThreadsStats) (req : Request) (front : Nat) :
      Edge handle t d (.worker stats (.dequeue (.front req)))
        (.worker stats (.dequeue (.decrement req))) { d with queue.front := front }
  | dequeued (stats : ThreadsStats) (req : Request) :
      Edge handle t d (.worker stats (.dequeue (.decrement req)))
        (.worker stats (.dequeue (.time req)))
        { d with queue.dequeueingSize := d.queue.dequeueingSize - 1,
                 trace := d.trace ++ [.dequeued t req] }
  | timeRead (stats : ThreadsStats) (req : Request) (now : Timeval) :
      Edge handle t d (.worker stats (.dequeue (.time req)))
        (.worker stats (.dequeue (.unlock req now))) d
  | dequeueUnlocked (stats : ThreadsStats) (req : Request) (now : Timeval) :
      Edge handle t d (.worker stats (.dequeue (.unlock req now)))
        (.worker stats (.timersub req now)) d
  | timeTaken (stats : ThreadsStats) (req : Request) (now dispatch : Timeval) :
      Edge handle t d (.worker stats (.timersub req now)) (.worker stats (.handle req dispatch)) d
  | returned (stats stats' : ThreadsStats) (req : Request) (dispatch : Timeval) :
      Edge handle t d (.worker stats (.handle req dispatch)) (.worker stats' (.close req))
        { d with trace := d.trace ++ [.returned t req] }
  | exited (stats : ThreadsStats) (req : Request) (dispatch : Timeval)
      (exit : ∃ s, handle req.connfd req.arrivalTime dispatch stats s = some .exited) :
      Edge handle t d (.worker stats (.handle req dispatch)) (.worker stats (.handle req dispatch))
        { d with running := false }
  | closed (stats : ThreadsStats) (req : Request) :
      Edge handle t d (.worker stats (.close req)) (.worker stats (.finish .lock))
        { d with trace := d.trace ++ [.closed t req] }
  | closeFailed (stats : ThreadsStats) (req : Request) :
      Edge handle t d (.worker stats (.close req)) (.worker stats (.close req))
        { d with running := false }
  | finishLocked (stats : ThreadsStats) :
      Edge handle t d (.worker stats (.finish .lock)) (.worker stats (.finish .size)) d
  | finished (stats : ThreadsStats) :
      Edge handle t d (.worker stats (.finish .size)) (.worker stats (.finish .signal))
        { d with queue.size := d.queue.size - 1, trace := d.trace ++ [.finished t] }
  | finishSignalled (stats : ThreadsStats) :
      Edge handle t d (.worker stats (.finish .signal)) (.worker stats (.finish .unlock)) d
  | finishUnlocked (stats : ThreadsStats) :
      Edge handle t d (.worker stats (.finish .unlock)) (.worker stats (.dequeue .lock)) d

theorem goes_edge {handle : Handler Script} {t : Tid n} {p q : Pc} {d d' : Shared n}
    (h : (code handle t p).Goes d q d') : Edge handle t d p q d' := by
  cases p with
  | main p =>
      cases p with
      | accept => rcases goes_accept h with ⟨rfl, c, rfl⟩ | ⟨rfl, rfl⟩ <;> constructor
      | stamp c => obtain ⟨rfl, now, rfl⟩ := goes_stamp h; constructor
      | check c =>
          obtain ⟨rfl, rfl⟩ := goes_stmt.1 h
          split
          · next hfull => exact .waitFull c hfull
          · next hroom => exact .waitRoom c hroom
      | lock | wait | unlock => obtain ⟨rfl, rfl⟩ := h; constructor
      | enqueue r s =>
          cases s with
          | lock | wait | signal | unlock => obtain ⟨rfl, rfl⟩ := h; constructor
          | check =>
              obtain ⟨rfl, rfl⟩ := goes_stmt.1 h
              split
              · next hfull => exact .enqueueFull r hfull
              · next hroom => exact .enqueueRoom r hroom
          | _ => obtain ⟨rfl, rfl⟩ := goes_stmt.1 h; constructor
  | worker stats p =>
      cases p with
      | dequeue s =>
          cases s with
          | lock | wait | unlock => obtain ⟨rfl, rfl⟩ := h; constructor
          | time req => obtain ⟨rfl, now, rfl⟩ := goes_time t h; constructor
          | check =>
              obtain ⟨rfl, rfl⟩ := goes_stmt.1 h
              split
              · next hnone => exact .nonePending stats hnone
              · next hsome => exact .somePending stats hsome
          | _ => obtain ⟨rfl, rfl⟩ := goes_stmt.1 h; constructor
      | finish s =>
          cases s with
          | size => obtain ⟨rfl, rfl⟩ := goes_stmt.1 h; constructor
          | _ => obtain ⟨rfl, rfl⟩ := h; constructor
      | timersub req now => obtain ⟨rfl, rfl⟩ := goes_stmt.1 h; constructor
      | handle req dispatch =>
          rcases goes_handle h with ⟨-, stats', -, rfl, rfl⟩ | ⟨hexit, rfl, rfl⟩
          · exact .returned stats stats' req dispatch
          · exact .exited stats req dispatch hexit
      | close req =>
          rcases goes_close handle h with ⟨rfl, rfl⟩ | ⟨rfl, rfl⟩
          · exact .closed stats req
          · exact .closeFailed stats req

end WebServer.RequestQueue
