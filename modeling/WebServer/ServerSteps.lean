import WebServer.LogAtomic
import WebServer.QueueWakeups
import WebServer.Server

namespace WebServer.Server

open Monitor Message Segel RequestCalls Sessions
open LogAtomic (Copy copied_reachable rep_of_counted)
open LogBuffer (entries text logged entries_append)
open QueueWakeups (ofMain role)
open RequestQueue (QueueState Tid ThreadsStats Request)
open Transcripts (Task)
open ServerLog (LogState int32)

variable {n : Nat}

/-- What a thread has to do with connections: the main thread holds one from `accept` to
`enqueue`, a worker has taken one until it is finished with it. -/
inductive View
  | accepting
  | holding (connfd : Int)
  | free
  | taken (req : Request)
  | handling (req : Request)
  | closing (req : Request)
  | finishing
  deriving DecidableEq

def view : RequestQueue.Pc → View
  | .main p => match p with
    | .accept => .accepting
    | .lock c | .check c | .wait c | .unlock c | .stamp c => .holding c
    | .enqueue r e => match e with
      | .signal | .unlock => .accepting
      | _ => .holding r.connfd
  | .worker _ p => match p with
    | .dequeue (.time r) | .dequeue (.unlock r _) | .timersub r _ => .taken r
    | .handle r _ => .handling r
    | .close r => .closing r
    | .finish .lock | .finish .size => .finishing
    | _ => .free

def System.look (s : System n) (t : Tid n) : View := view (s.queue.place t)

structure Moves (s : System n) (τ : QueueState n) (t : Tid n) (v v' : View)
    (es ds : List Request) : Prop where
  old : s.look t = v
  look : ∀ u, view (τ.place u) = Function.update s.look t v' u
  enqueued : QueueRefinement.enqueued τ.data.trace = s.enqueued ++ es
  dequeued : QueueRefinement.dequeued τ.data.trace = s.dequeued ++ ds

inductive Use
  | none
  | asking
  | reading
  | handing (dst : Bytes) (size : Int)
  | adding

def use : ServerLog.Pc → Use
  | .idle => .none
  | .get _ s => match s with
    | .lock | .check | .wait | .incReaders => .asking
    | .unlock | .malloc | .memcpy _ | .copying .. | .result _ => .reading
    | .endLock dst m | .decReaders dst m | .testReaders dst m | .signal dst m | .endUnlock dst m
    | .ret dst m => .handing dst m
  | .addTest .. | .add .. | .addRet _ => .adding

def atLog : Call → Bool
  | .getLog | .addToLog .. => true
  | _ => false

def System.use (s : System n) (i : Fin n) : Use := Server.use (s.log.place i)

def System.entries (s : System n) : List (Nat × Bytes) := LogBuffer.entries s.log.data.trace

structure LogMoves (s : System n) (μ : LogState (Fin n)) (i : Fin n) (v v' : Use)
    (es : List (Nat × Bytes)) : Prop where
  old : s.use i = v
  use : ∀ j, use (μ.place j) = Function.update s.use i v' j
  entries : LogBuffer.entries μ.data.trace = s.entries ++ es

inductive Change (s : System n) : System n → Prop
  | quiet {τ t v} (h : Moves s τ t v v [] []) : Change s { s with queue := τ }
  | accepted {τ connfd} (h : Moves s τ .main .accepting (.holding connfd) [] [])
      (closed : s.fds connfd = none) : Change s { s with
        queue := τ, fds := Function.update s.fds connfd (some (.connection s.accepts)),
        accepts := s.accepts + 1, trace := s.trace ++ [.accepted s.accepts connfd] }
  | enqueued {τ req} (h : Moves s τ .main (.holding req.connfd) .accepting [req] []) :
      Change s { s with queue := τ, trace := s.trace ++ [.enqueued s.enqueued.length] }
  | dequeued {τ i req} (h : Moves s τ (.worker i) .free (.taken req) [] [req]) : Change s { s with
      queue := τ, serving := Function.update s.serving i s.dequeued.length,
      trace := s.trace ++ [.dequeued s.dequeued.length i] }
  | called {τ i req x} {t : Task} (h : Moves s τ (.worker i) (.taken req) (.handling req) [] [])
      (follows : Follows x .new fun _ ψ => ψ.Over) : Change s { s with
        queue := τ, rest := Function.update s.rest i (some x),
        session := Function.update s.session i .new
        task := Function.update s.task (s.serving i) t
        made := Function.update s.made (s.serving i) .new }
  | returned {τ i req stats} (h : Moves s τ (.worker i) (.handling req) (.closing req) [] [])
      (rest : s.rest i = some (.ret stats)) : Change s { s with
        queue := τ, rest := Function.update s.rest i none,
        trace := s.trace ++ [.returned (s.serving i) i] }
  | closed {τ i req} (h : Moves s τ (.worker i) (.closing req) .finishing [] []) : Change s { s with
      queue := τ, fds := Function.update s.fds req.connfd none,
      trace := s.trace ++ [.closed (s.serving i) i] }
  | finished {τ i} (h : Moves s τ (.worker i) .finishing .free [] []) :
      Change s { s with queue := τ, trace := s.trace ++ [.finished (s.serving i) i] }
  | logQuiet {μ i v} (h : LogMoves s μ i v v []) : Change s { s with log := μ }
  | asks {μ i k} (h : LogMoves s μ i .none .asking []) (rest : s.rest i = some (.call .getLog k)) :
      Change s { s with log := μ }
  | adds {μ i bs len k} (h : LogMoves s μ i .none .adding [])
      (rest : s.rest i = some (.call (.addToLog bs len) k)) : Change s { s with log := μ }
  | reads {μ i} (h : LogMoves s μ i .asking .reading []) :
      Change s { s with log := μ, trace := s.trace ++ [.reads (s.serving i)] }
  | copied {μ i dst m} (h : LogMoves s μ i .reading (.handing dst m) [])
      (copy : Copy s.entries dst m) : Change s { s with log := μ }
  | got {μ i dst m k} (h : LogMoves s μ i (.handing dst m) .none [])
      (rest : s.rest i = some (.call .getLog k)) : Change s { s.goOn i .getLog k (m, dst) with
        log := μ, trace := s.trace ++ [.got (s.serving i) m dst] }
  | logged {μ i c e} (h : LogMoves s μ i .adding .adding [(c, e)])
      (unread : ∀ j, s.use j ≠ .reading) :
      Change s { s with log := μ, trace := s.trace ++ [.logged (s.serving i) e] }
  | added {μ i bs len k} (h : LogMoves s μ i .adding .none [])
      (rest : s.rest i = some (.call (.addToLog bs len) k)) :
      Change s { s.goOn i (.addToLog bs len) k () with log := μ }
  | answered {i req c k} (a : Call.Answer c) (look : s.look (.worker i) = .handling req)
      (rest : s.rest i = some (.call c k))
      (same : protocol.next (s.session i) c a = s.session i) (apart : atLog c = false) :
      Change s (s.goOn i c k a)
  | wrote {i req usrbuf m k c j} (look : s.look (.worker i) = .handling req)
      (rest : s.rest i = some (.call (.rioWriten usrbuf m) k))
      (conn : s.fds req.connfd = some (.connection c)) (le : j ≤ m) : Change s { s with
        rest := Function.update s.rest i (some (.call (.rioWriten (usrbuf.drop j) (m - j)) k)),
        session := Function.update s.session i
          { s.session i with sent := (s.session i).sent ++ usrbuf.take j },
        made := Function.update s.made (s.serving i)
          { s.made (s.serving i) with sent := (s.made (s.serving i)).sent ++ usrbuf.take j },
        trace := s.trace ++ [.sent c (usrbuf.take j)] }
  | opened {i req pathname k fd} (look : s.look (.worker i) = .handling req)
      (rest : s.rest i = some (.call (.openFile pathname) k)) (nonneg : 0 ≤ fd)
      (closed : s.fds fd = none) : Change s { s.goOn i (.openFile pathname) k fd with
        fds := Function.update s.fds fd (some (.file i)) }
  | fileClosed {i req fd k} (look : s.look (.worker i) = .handling req)
      (rest : s.rest i = some (.call (.close fd) k)) :
      Change s { s.goOn i (.close fd) k () with fds := Function.update s.fds fd none }
  | forked {i req cgiargs filename k} (look : s.look (.worker i) = .handling req)
      (rest : s.rest i = some (.call (.fork cgiargs filename) k)) :
      Change s { s.goOn i (.fork cgiargs filename) k (s.forks + 1) with
        children := Function.update s.children (s.forks + 1)
          (some ⟨s.fds, s.serving i, false, false⟩),
        forks := s.forks + 1, trace := s.trace ++ [.forked (s.serving i) (s.forks + 1)] }
  | duplicated {pid child oldfd newfd} (found : s.children pid = some child)
      (live : child.ended = false) : Change s { s with
        children := Function.update s.children pid
          (some { child with fds := Function.update child.fds newfd (child.fds oldfd) })
        trace := s.trace ++ [.duplicated pid oldfd newfd] }
  | spawned {pid child} (found : s.children pid = some child) (live : child.ended = false) :
      Change s { s with
        children := Function.update s.children (s.forks + 1) (some { child with stopped := false })
        forks := s.forks + 1
        trace := s.trace ++ [.spawned pid (s.forks + 1)] }
  | shut {pid child fd} (found : s.children pid = some child) (live : child.ended = false) :
      Change s { s with
        children := Function.update s.children pid
          (some { child with fds := Function.update child.fds fd none })
        trace := s.trace ++ [.shut pid fd] }
  | output {pid child} (bytes : Bytes) (found : s.children pid = some child)
      (live : child.ended = false) :
      Change s { s with trace := s.trace ++ [.sent child.serves bytes] }
  | idle : Change s s
  | signalled {pid child} (stopped : Bool) (found : s.children pid = some child)
      (live : child.ended = false) : Change s { s with
        children := Function.update s.children pid (some { child with stopped := stopped }) }
  | ended {pid child} (found : s.children pid = some child) (live : child.ended = false) :
      Change s { s with
        children := Function.update s.children pid (some { child with ended := true }),
        trace := s.trace ++ [.ended pid] }

variable {cap : Nat} {junk : Nat → Request} {byte : Nat → ServerLog.Byte} {listenfd : Int}
  {s s' : System n} {τ : QueueState n} {μ : LogState (Fin n)} {t : Tid n} {i : Fin n}

theorem moves_of {p q : RequestQueue.Pc} {es ds : List Request} (hp : s.queue.place t = p)
    (hq : τ.place = Function.update s.queue.place t q)
    (he : QueueRefinement.enqueued τ.data.trace = s.enqueued ++ es)
    (hd : QueueRefinement.dequeued τ.data.trace = s.dequeued ++ ds) :
    Moves s τ t (view p) (view q) es ds where
  old := by rw [System.look, hp]
  look u := by
    rw [hq]
    by_cases hu : u = t
    · subst u; simp
    · simp [hu, System.look]
  enqueued := he
  dequeued := hd

theorem moves_quiet (hp : τ.place = s.queue.place) (hd : τ.data = s.queue.data) (t : Tid n) :
    Moves s τ t (s.look t) (s.look t) [] [] where
  old := rfl
  look u := by rw [hp, Function.update_eq_self]; rfl
  enqueued := by rw [hd, List.append_nil]; rfl
  dequeued := by rw [hd, List.append_nil]; rfl

theorem main_change {p q : RequestQueue.Pc} {a : Frame} (hp : s.queue.place .main = p)
    (hq : τ.place = Function.update s.queue.place .main q) (hmain : ofMain p = true)
    (hg : (RequestQueue.code anyOutcome (.main : Tid n) p).Goes s.queue.data q τ.data)
    (he : s.queueEffect τ a .main p q = some s') : Change s s' := by
  cases p with
  | worker stats p => cases hmain
  | main p =>
      generalize hd : τ.data = d at hg
      have he0 : d.trace = s.queue.data.trace →
          QueueRefinement.enqueued τ.data.trace = s.enqueued ++ [] ∧
            QueueRefinement.dequeued τ.data.trace = s.dequeued ++ [] := fun ht => by
        rw [hd, ht, List.append_nil, List.append_nil]
        exact ⟨rfl, rfl⟩
      cases RequestQueue.goes_edge hg with
      | accepted connfd =>
          obtain ⟨closed, he⟩ := Option.ite_none_right_eq_some.1 he
          obtain rfl := Option.some.inj he
          exact .accepted (moves_of hp hq (he0 rfl).1 (he0 rfl).2) closed
      | enqueued req =>
          obtain rfl := Option.some.inj he
          apply Change.enqueued
          refine moves_of hp hq ?_ ?_ <;> rw [hd]
          · simp [QueueRefinement.enqueued, System.enqueued]
          · simp [QueueRefinement.dequeued, System.dequeued]
      | _ =>
          obtain rfl := Option.some.inj he
          have h := moves_of hp hq (he0 rfl).1 (he0 rfl).2
          exact .quiet h

theorem worker_change {p q : RequestQueue.Pc} {a : Frame} (hp : s.queue.place (.worker i) = p)
    (hq : τ.place = Function.update s.queue.place (.worker i) q) (hworker : ofMain p = false)
    (hg : (RequestQueue.code anyOutcome (.worker i : Tid n) p).Goes s.queue.data q τ.data)
    (he : s.queueEffect τ a (.worker i) p q = some s') : Change s s' := by
  cases p with
  | main p => cases hworker
  | worker stats p =>
      generalize hd : τ.data = d at hg
      have he0 : QueueRefinement.enqueued d.trace = s.enqueued →
          QueueRefinement.enqueued τ.data.trace = s.enqueued ++ [] := fun ht => by
        rw [hd, ht, List.append_nil]
      have hd0 : QueueRefinement.dequeued d.trace = s.dequeued →
          QueueRefinement.dequeued τ.data.trace = s.dequeued ++ [] := fun ht => by
        rw [hd, ht, List.append_nil]
      cases RequestQueue.goes_edge hg with
      | dequeued stats req =>
          obtain rfl := Option.some.inj he
          apply Change.dequeued
          refine moves_of hp hq (he0 ?_) ?_
          · simp [QueueRefinement.enqueued, System.enqueued]
          · rw [hd]; simp [QueueRefinement.dequeued, System.dequeued]
      | timeTaken stats req now dispatch =>
          obtain rfl := Option.some.inj he
          exact .called (moves_of hp hq (he0 rfl) (hd0 rfl)) (requestHandle_follows _ _ _ _ _ _)
      | returned stats stats' req dispatch =>
          dsimp only [System.queueEffect] at he
          split at he
          · next stats'' hrest =>
              obtain ⟨rfl, hs⟩ := Option.ite_none_right_eq_some.1 he
              obtain rfl := Option.some.inj hs
              refine .returned (moves_of hp hq (he0 ?_) (hd0 ?_)) hrest
              · simp [QueueRefinement.enqueued, System.enqueued]
              · simp [QueueRefinement.dequeued, System.dequeued]
          · cases he
      | exited stats req dispatch exit =>
          dsimp only [System.queueEffect] at he
          split at he
          · obtain ⟨-, he⟩ := Option.ite_none_right_eq_some.1 he
            obtain rfl := Option.some.inj he
            have h := moves_of hp hq (he0 rfl) (hd0 rfl)
            exact .quiet h
          · cases he
      | closed stats req =>
          obtain rfl := Option.some.inj he
          refine .closed (moves_of hp hq (he0 ?_) (hd0 ?_))
          · simp [QueueRefinement.enqueued, System.enqueued]
          · simp [QueueRefinement.dequeued, System.dequeued]
      | finished stats =>
          obtain rfl := Option.some.inj he
          refine .finished (moves_of hp hq (he0 ?_) (hd0 ?_))
          · simp [QueueRefinement.enqueued, System.enqueued]
          · simp [QueueRefinement.dequeued, System.dequeued]
      | _ =>
          obtain rfl := Option.some.inj he
          have h := moves_of hp hq (he0 rfl) (hd0 rfl)
          exact .quiet h

theorem queue_change
    (hr : Monitor.Reachable (queueMachine n) (RequestQueue.start n junk cap) s.queue) {a : Frame}
    (h : Exec (queueMachine n) t s.queue τ)
    (he : s.queueEffect τ a t (s.queue.place t) (τ.place t) = some s') : Change s s' := by
  rcases exec_goes h with ⟨hwoken, hpl, hd⟩ | ⟨p, q, hp, hg, hpl⟩
  · have hquiet := moves_quiet hpl hd t
    rw [hpl] at he
    rcases QueueRefinement.waiter_place hr (.inr hwoken) with ⟨k, hp⟩ | ⟨req, hp⟩ | ⟨stats, hp⟩
    all_goals
      rw [hp] at he
      cases t <;> exact Option.some.inj he ▸ .quiet hquiet
  · have hrole := role hr t
    have hplace := place_of_run hp
    have hq : τ.place t = q := by rw [hpl, Function.update_self]
    rw [hplace, hq] at he
    rw [hplace] at hrole
    cases t with
    | main => exact main_change hplace hpl (hrole.2 rfl) hg he
    | worker i =>
        have hworker : ofMain p = false := by
          rw [← Bool.not_eq_true, hrole]
          nofun
        exact worker_change hplace hpl hworker hg he

theorem logMoves_of {p q : ServerLog.Pc} {es : List (Nat × Bytes)} (hp : s.log.place i = p)
    (hq : μ.place = Function.update s.log.place i q)
    (he : LogBuffer.entries μ.data.trace = s.entries ++ es) :
    LogMoves s μ i (Server.use p) (Server.use q) es where
  old := by rw [System.use, hp]
  use j := by
    rw [hq]
    by_cases hj : j = i
    · subst j; simp
    · simp [hj, System.use]
  entries := he

theorem logMoves_quiet (hp : μ.place = s.log.place) (hd : μ.data = s.log.data) (i : Fin n) :
    LogMoves s μ i (s.use i) (s.use i) [] where
  old := rfl
  use j := by rw [hp, Function.update_eq_self]; rfl
  entries := by rw [hd, List.append_nil]; rfl

theorem copy_of_result {σ : LogState (Fin n)}
    (hr : Monitor.Reachable (logMachine n) (ServerLog.start (Fin n) byte) σ) {c : Nat}
    {dst : Bytes} (hp : σ.place i = .get c (.result dst)) :
    Copy (LogBuffer.entries σ.data.trace) dst (int32 σ.data.log.size) := by
  have hcopied := copied_reachable hr i
  rw [hp] at hcopied
  have hrep := (@rep_of_counted _ _ _ _ _ hr i (by rw [hp]; rfl)).1
  exact ⟨hcopied.2, by rw [hrep.size]; rfl⟩

theorem counted_of_reading {p : ServerLog.Pc} (h : use p = .reading) : LogLock.counted p = true := by
  cases p with
  | get c s => cases s <;> first | rfl | cases h
  | _ => cases h

theorem unread_of_clear {σ : LogState (Fin n)}
    (hr : Monitor.Reachable (logMachine n) (ServerLog.start (Fin n) byte) σ) {c : Nat}
    {e : ServerLog.Entry} (hp : σ.phase i = .run (.add c e .clear)) (j : Fin n) :
    Server.use (σ.place j) ≠ .reading := by
  intro hj
  have hpos := LogAtomic.readers_pos hr (counted_of_reading hj)
  have hnone : σ.data.log.readers ≤ 0 := ((LogLock.annotated hr).2 i _ hp rfl).2
  omega

theorem log_running (h : Exec (logMachine n) i s.log μ)
    (he : s.logEffect μ i (s.log.place i) (μ.place i) = some s') :
    μ.data.running = s.log.data.running := by
  rcases exec_goes h with ⟨-, -, hd⟩ | ⟨p, q, hp, hg, hpl⟩
  · rw [hd]
  · rw [place_of_run hp, hpl, Function.update_self] at he
    generalize μ.data = d at hg
    cases ServerLog.goes_edge hg with
    | readFailed | writeFailed => cases he
    | _ => rfl

theorem log_change (hr : Monitor.Reachable (logMachine n) (ServerLog.start (Fin n) byte) s.log)
    (h : Exec (logMachine n) i s.log μ)
    (he : s.logEffect μ i (s.log.place i) (μ.place i) = some s') : Change s s' := by
  rcases exec_goes h with ⟨hwoken, hpl, hd⟩ | ⟨p, q, hp, hg, hpl⟩
  · have hquiet := logMoves_quiet hpl hd i
    rw [hpl] at he
    rcases LogLock.waiter_place hr (.inr hwoken) with ⟨c, hp⟩ | ⟨c, e, hp⟩
    all_goals
      rw [hp] at he
      exact Option.some.inj he ▸ .logQuiet hquiet
  · have hplace := place_of_run hp
    have hq : μ.place i = q := by rw [hpl, Function.update_self]
    rw [hplace, hq] at he
    have hunread {c : Nat} {e : ServerLog.Entry} (hclear : p = .add c e .clear) :=
      unread_of_clear (c := c) (e := e) hr (hclear ▸ hp)
    have hcopy {c : Nat} {dst : Bytes} (hres : p = .get c (.result dst)) :=
      copy_of_result hr (hplace.trans hres)
    generalize hd : μ.data = d at hg
    have he0 (ht : LogBuffer.entries d.trace = s.entries) :
        LogBuffer.entries μ.data.trace = s.entries ++ [] := by
      rw [hd, ht, List.append_nil]
    have silent {e : ServerLog.Event} (hent : LogBuffer.entries [e] = []) :
        LogBuffer.entries (s.log.data.trace ++ [e]) = s.entries := by
      rw [entries_append, hent, List.append_nil]
      rfl
    cases ServerLog.goes_edge hg with
    | callGet =>
        dsimp only [System.logEffect] at he
        split at he
        · next hrest =>
            obtain rfl := Option.some.inj he
            exact .asks (logMoves_of hplace hpl (he0 (silent rfl))) hrest
        · cases he
    | callAdd data m readable =>
        dsimp only [System.logEffect] at he
        split at he
        · next hrest =>
            obtain ⟨-, hs⟩ := Option.ite_none_right_eq_some.1 he
            obtain rfl := Option.some.inj hs
            exact .adds (logMoves_of hplace hpl (he0 (silent rfl))) hrest
        · cases he
    | retAdd c =>
        dsimp only [System.logEffect] at he
        split at he
        · next hrest =>
            obtain rfl := Option.some.inj he
            exact .added (logMoves_of hplace hpl (he0 (silent rfl))) hrest
        · cases he
    | retGet c dst m =>
        dsimp only [System.logEffect] at he
        split at he
        · next hrest =>
            obtain rfl := Option.some.inj he
            exact .got (logMoves_of hplace hpl (he0 (silent rfl))) hrest
        · cases he
    | readCounted c =>
        obtain rfl := Option.some.inj he
        exact .reads (logMoves_of hplace hpl (he0 rfl))
    | lengthRead c dst =>
        obtain rfl := Option.some.inj he
        have h := logMoves_of hplace hpl (he0 rfl)
        exact .copied h (hcopy rfl)
    | readFailed | writeFailed => cases he
    | wrote c e =>
        obtain rfl := Option.some.inj he
        have hent : LogBuffer.entries μ.data.trace = s.entries ++ [(c, e.bytes)] := by
          rw [hd, entries_append]; rfl
        exact .logged (logMoves_of hplace hpl hent) (hunread rfl)
    | _ =>
        obtain rfl := Option.some.inj he
        have h := logMoves_of hplace hpl (he0 rfl)
        exact .logQuiet h

theorem call_change {req : Request} {c : Call} {k : c.Answer → Calls ThreadsStats} {a : Answer}
    (hlook : s.look (.worker i) = .handling req) (hr : s.rest i = some (.call c k))
    (he : s.callEffect i req.connfd c k a = some s') : Change s s' := by
  unfold System.callEffect at he
  split at he
  · obtain rfl := Option.some.inj he
    exact .answered _ hlook hr rfl rfl
  · split at he
    · next hconn =>
        obtain ⟨⟨-, hle, -⟩, hs⟩ := Option.ite_none_right_eq_some.1 he
        obtain rfl := Option.some.inj hs
        exact .wrote hlook hr hconn hle
    · cases he
  · obtain rfl := Option.some.inj he
    exact .answered _ hlook hr (by simp [protocol]) rfl
  · obtain rfl := Option.some.inj he
    exact .answered _ hlook hr rfl rfl
  · obtain ⟨⟨hnonneg, hclosed⟩, hs⟩ := Option.ite_none_right_eq_some.1 he
    obtain rfl := Option.some.inj hs
    exact .opened hlook hr hnonneg hclosed
  · obtain rfl := Option.some.inj he
    exact .fileClosed hlook hr
  · obtain rfl := Option.some.inj he
    exact .answered _ hlook hr rfl rfl
  · obtain rfl := Option.some.inj he
    exact .answered _ hlook hr rfl rfl
  · obtain rfl := Option.some.inj he
    exact .answered _ hlook hr rfl rfl
  · obtain rfl := Option.some.inj he
    exact .forked hlook hr
  · split at he
    · obtain ⟨-, hs⟩ := Option.ite_none_right_eq_some.1 he
      obtain rfl := Option.some.inj hs
      exact .answered _ hlook hr rfl rfl
    · cases he
  · cases he

theorem child_change {pid : Nat} {m : ChildMove} (he : s.childEffect pid m = some s') :
    Change s s' := by
  unfold System.childEffect at he
  split at he
  · cases he
  · next child hfound =>
      split at he
      · cases he
      · next hlive =>
          have hlive : child.ended = false := by simpa using hlive
          cases m with
          | dup2 oldfd newfd =>
              obtain ⟨-, hs⟩ := Option.ite_none_right_eq_some.1 he
              obtain rfl := Option.some.inj hs
              exact .duplicated hfound hlive
          | fork =>
              obtain rfl := Option.some.inj he
              exact .spawned hfound hlive
          | close fd =>
              obtain rfl := Option.some.inj he
              exact .shut hfound hlive
          | output fd bytes =>
              dsimp only at he
              split at he
              · obtain ⟨rfl, hs⟩ := Option.ite_none_right_eq_some.1 he
                obtain rfl := Option.some.inj hs
                exact .output bytes hfound hlive
              · obtain rfl := Option.some.inj he
                exact .idle
          | stop | resume =>
              obtain rfl := Option.some.inj he
              exact .signalled _ hfound hlive
          | exit =>
              obtain rfl := Option.some.inj he
              exact .ended hfound hlive

theorem queueEffect_parts {a : Frame} {p q : RequestQueue.Pc}
    (he : s.queueEffect τ a t p q = some s') : s'.queue = τ ∧ s'.log = s.log := by
  unfold System.queueEffect at he
  split at he
  case h_1 =>
    obtain ⟨-, hs⟩ := Option.ite_none_right_eq_some.1 he
    obtain rfl := Option.some.inj hs
    exact ⟨rfl, rfl⟩
  case h_5 | h_6 =>
    split at he
    · obtain ⟨-, hs⟩ := Option.ite_none_right_eq_some.1 he
      obtain rfl := Option.some.inj hs
      exact ⟨rfl, rfl⟩
    · cases he
  all_goals
    obtain rfl := Option.some.inj he
    exact ⟨rfl, rfl⟩

theorem logEffect_parts {p q : ServerLog.Pc} (he : s.logEffect μ i p q = some s') :
    s'.queue = s.queue ∧ s'.log = μ := by
  unfold System.logEffect at he
  split at he
  case h_1 | h_4 | h_8 =>
    split at he
    · obtain rfl := Option.some.inj he
      exact ⟨rfl, rfl⟩
    · cases he
  case h_6 | h_7 => cases he
  case h_2 =>
    split at he
    · obtain ⟨-, hs⟩ := Option.ite_none_right_eq_some.1 he
      obtain rfl := Option.some.inj hs
      exact ⟨rfl, rfl⟩
    · cases he
  all_goals
    obtain rfl := Option.some.inj he
    exact ⟨rfl, rfl⟩

theorem callEffect_parts {connfd : Int} {c : Call} {k : c.Answer → Calls ThreadsStats} {a : Answer}
    (he : s.callEffect i connfd c k a = some s') : s'.queue = s.queue ∧ s'.log = s.log := by
  unfold System.callEffect at he
  split at he
  case h_2 | h_11 =>
    split at he
    · obtain ⟨-, hs⟩ := Option.ite_none_right_eq_some.1 he
      obtain rfl := Option.some.inj hs
      exact ⟨rfl, rfl⟩
    · cases he
  case h_5 =>
    obtain ⟨-, hs⟩ := Option.ite_none_right_eq_some.1 he
    obtain rfl := Option.some.inj hs
    exact ⟨rfl, rfl⟩
  case h_12 => cases he
  all_goals
    obtain rfl := Option.some.inj he
    exact ⟨rfl, rfl⟩

theorem childEffect_parts {pid : Nat} {m : ChildMove} (he : s.childEffect pid m = some s') :
    s'.queue = s.queue ∧ s'.log = s.log := by
  unfold System.childEffect at he
  split at he
  · cases he
  · split at he
    · cases he
    · cases m with
      | dup2 oldfd newfd =>
          obtain ⟨-, hs⟩ := Option.ite_none_right_eq_some.1 he
          obtain rfl := Option.some.inj hs
          exact ⟨rfl, rfl⟩
      | output fd bytes =>
          dsimp only at he
          split at he
          · obtain ⟨-, hs⟩ := Option.ite_none_right_eq_some.1 he
            obtain rfl := Option.some.inj hs
            exact ⟨rfl, rfl⟩
          · obtain rfl := Option.some.inj he
            exact ⟨rfl, rfl⟩
      | fork | close | stop | resume | exit =>
          obtain rfl := Option.some.inj he
          exact ⟨rfl, rfl⟩

/-- The two machines of the server in states of their own. A log whose `Malloc` has failed
is left to the end of the process. -/
structure Machines (junk : Nat → Request) (cap : Nat) (byte : Nat → ServerLog.Byte)
    (s : System n) : Prop where
  queue : Monitor.Reachable (queueMachine n) (RequestQueue.start n junk cap) s.queue
  log : Monitor.Reachable (logMachine n) (ServerLog.start (Fin n) byte) s.log
  live : s.log.data.running = true

theorem machines_reachable (h : Reachable (start n junk cap byte listenfd) s) :
    Machines junk cap byte s := by
  refine h.invariant (I := Machines junk cap byte) ⟨.start, .start, rfl⟩ fun s s' _ ih hs => ?_
  obtain ⟨hqueue, hlog, hlive⟩ := ih
  cases hs with
  | queue t a live h he =>
      obtain ⟨hq, hl⟩ := queueEffect_parts he
      exact ⟨hq ▸ hqueue.next (.exec t live h), hl ▸ hlog, hl ▸ hlive⟩
  | queueSpurious u live h => exact ⟨hqueue.next (.spurious u live h), hlog, hlive⟩
  | log i live h he =>
      obtain ⟨hq, hl⟩ := logEffect_parts he
      exact ⟨hq ▸ hqueue, hl ▸ hlog.next (.exec i hlive h), hl ▸ (log_running h he).trans hlive⟩
  | logSpurious u live h =>
      obtain ⟨-, hd, -⟩ := spurious_place h
      exact ⟨hqueue, hlog.next (.spurious u hlive h), hd ▸ hlive⟩
  | call i a live hp hr he =>
      obtain ⟨hq, hl⟩ := callEffect_parts he
      exact ⟨hq ▸ hqueue, hl ▸ hlog, hl ▸ hlive⟩
  | child pid m he =>
      obtain ⟨hq, hl⟩ := childEffect_parts he
      exact ⟨hq ▸ hqueue, hl ▸ hlog, hl ▸ hlive⟩

theorem step_change (hr : Reachable (start n junk cap byte listenfd) s) (h : Step s s') :
    Change s s' := by
  obtain ⟨hqueue, hlog, -⟩ := machines_reachable hr
  cases h with
  | queue t a live h he => exact queue_change hqueue h he
  | queueSpurious u live h =>
      obtain ⟨hp, hd, -⟩ := spurious_place h
      exact .quiet (moves_quiet hp hd u)
  | log i live h he => exact log_change hlog h he
  | logSpurious u live h =>
      obtain ⟨hp, hd, -⟩ := spurious_place h
      exact .logQuiet (logMoves_quiet hp hd u)
  | call i a live hp hr he => exact call_change (by rw [System.look, hp]; rfl) hr he
  | child pid m he => exact child_change he

theorem Reachable.changes {I : System n → Prop}
    (h : Reachable (Server.start n junk cap byte listenfd) s)
    (start : I (Server.start n junk cap byte listenfd))
    (step : ∀ s s', Reachable (Server.start n junk cap byte listenfd) s →
      Reachable (Server.start n junk cap byte listenfd) s' → I s → Change s s' → I s') : I s :=
  h.invariant start fun s s' hr hi hs => step s s' hr (hr.next hs) hi (step_change hr hs)

def Calling (look : Tid n → View) (rest : Fin n → Option (Calls ThreadsStats))
    (session : Fin n → Session) : Prop :=
  ∀ i x, rest i = some x →
    (∃ req, look (.worker i) = .handling req) ∧ Follows x (session i) fun _ ψ => ψ.Over

variable {look : Tid n → View} {rest : Fin n → Option (Calls ThreadsStats)}
  {session : Fin n → Session} {x : Calls ThreadsStats} {ψ : Session}

theorem Calling.update (h : Calling look rest session) {req : Request}
    (hlook : look (.worker i) = .handling req) (hx : Follows x ψ fun _ ψ' => ψ'.Over) :
    Calling look (Function.update rest i (some x)) (Function.update session i ψ) := by
  intro j y hy
  by_cases hj : j = i
  · subst j
    rw [Function.update_self] at hy ⊢
    obtain rfl := Option.some.inj hy
    exact ⟨⟨req, hlook⟩, hx⟩
  · rw [Function.update_of_ne hj] at hy ⊢
    exact h j y hy

theorem Calling.goOn (h : Calling look rest session) {c : Call} {k : c.Answer → Calls ThreadsStats}
    (hr : rest i = some (.call c k)) (a : c.Answer) :
    Calling look (Function.update rest i (some (k a)))
      (Function.update session i (protocol.next (session i) c a)) := by
  obtain ⟨⟨req, hlook⟩, -, hk⟩ := h i _ hr
  exact h.update hlook (hk a)

theorem Calling.away (h : Calling look rest session)
    (hlook : ∀ req, look (.worker i) ≠ .handling req) : rest i = none := by
  by_contra hsome
  obtain ⟨x, hx⟩ := Option.ne_none_iff_exists'.1 hsome
  obtain ⟨⟨req, hreq⟩, -⟩ := h i x hx
  exact hlook req hreq

theorem Calling.moves (h : Calling look rest session) {v : View}
    (ht : ∀ req, look t ≠ .handling req) : Calling (Function.update look t v) rest session := by
  intro j y hy
  obtain ⟨⟨req, hlook⟩, hf⟩ := h j y hy
  have hj : Tid.worker j ≠ t := by
    rintro rfl
    exact ht req hlook
  exact ⟨⟨req, by rwa [Function.update_of_ne hj]⟩, hf⟩

theorem Calling.leave (h : Calling look rest session) {v : View} :
    Calling (Function.update look (.worker i) v) (Function.update rest i none) session := by
  intro j y hy
  by_cases hj : j = i
  · subst j
    rw [Function.update_self] at hy
    cases hy
  · rw [Function.update_of_ne hj] at hy
    obtain ⟨⟨req, hlook⟩, hf⟩ := h j y hy
    exact ⟨⟨req, by rwa [Function.update_of_ne (by simpa using hj)]⟩, hf⟩

theorem calling_change (h : Calling s.look s.rest s.session) (hc : Change s s') :
    Calling s'.look s'.rest s'.session := by
  have frame {τ : QueueState n} {t : Tid n} {v v' : View} {es ds : List Request}
      (hm : Moves s τ t v v' es ds) {rest : Fin n → Option (Calls ThreadsStats)}
      {session : Fin n → Session} (hn : Calling (Function.update s.look t v') rest session) :
      Calling (fun u => view (τ.place u)) rest session := by
    rwa [funext hm.look]
  have moves {τ : QueueState n} {t : Tid n} {v v' : View} {es ds : List Request}
      (hm : Moves s τ t v v' es ds) (hv : ∀ req, v ≠ .handling req) :
      Calling (fun u => view (τ.place u)) s.rest s.session :=
    frame hm (h.moves (by rwa [hm.old]))
  cases hc with
  | quiet hm => exact frame hm (by rwa [← hm.old, Function.update_eq_self])
  | accepted hm | enqueued hm | dequeued hm | closed hm | finished hm => exact moves hm nofun
  | called hm follows =>
      refine frame hm ((h.moves ?_).update (Function.update_self _ _ _) follows)
      rw [hm.old]
      nofun
  | returned hm rest => exact frame hm h.leave
  | got hm rest => exact h.goOn rest _
  | added hm rest => exact h.goOn rest _
  | answered a look rest same => exact h.goOn rest a
  | opened look rest nonneg closed => exact h.goOn rest _
  | fileClosed look rest => exact h.goOn rest _
  | forked look rest => exact h.goOn rest _
  | wrote look rest conn le =>
      obtain ⟨-, -, hk⟩ := h _ _ rest
      refine h.update look ⟨trivial, fun r => ?_⟩
      have hnext := hk r
      simp only [protocol] at hnext ⊢
      rwa [List.append_assoc, ← List.take_add, Nat.add_sub_cancel' le]
  | _ => exact h

theorem calling_reachable (h : Reachable (start n junk cap byte listenfd) s) :
    Calling s.look s.rest s.session :=
  h.changes (I := fun s => Calling s.look s.rest s.session) nofun
    fun _ _ _ _ hi hc => calling_change hi hc

def Handles (look : Tid n → View) (rest : Fin n → Option (Calls ThreadsStats)) : Prop :=
  ∀ i req, look (.worker i) = .handling req → (rest i).isSome

theorem Handles.goOn (h : Handles look rest) (x : Calls ThreadsStats) :
    Handles look (Function.update rest i (some x)) := by
  intro j req hj
  by_cases hji : j = i
  · rw [hji, Function.update_self]
    rfl
  · rw [Function.update_of_ne hji]
    exact h j req hj

theorem Handles.moves (h : Handles look rest) {v : View}
    (hv : ∀ i req, t = .worker i → v = .handling req → (rest i).isSome) :
    Handles (Function.update look t v) rest := by
  intro j req hj
  by_cases ht : Tid.worker j = t
  · subst ht
    rw [Function.update_self] at hj
    exact hv j req rfl hj
  · rw [Function.update_of_ne ht] at hj
    exact h j req hj

theorem Handles.leave (h : Handles look rest) {v : View}
    (hv : ∀ req, v ≠ .handling req) :
    Handles (Function.update look (.worker i) v) (Function.update rest i none) := by
  intro j req hj
  by_cases hji : j = i
  · subst hji
    rw [Function.update_self] at hj
    exact absurd hj (hv req)
  · rw [Function.update_of_ne (by simpa using hji)] at hj
    rw [Function.update_of_ne hji]
    exact h j req hj

theorem handles_change (h : Handles s.look s.rest) (hc : Change s s') :
    Handles s'.look s'.rest := by
  have frame {τ : QueueState n} {t : Tid n} {v v' : View} {es ds : List Request}
      (hm : Moves s τ t v v' es ds) {rest : Fin n → Option (Calls ThreadsStats)}
      (hn : Handles (Function.update s.look t v') rest) :
      Handles (fun u => view (τ.place u)) rest := by
    rwa [funext hm.look]
  cases hc with
  | quiet hm => exact frame hm (by rwa [← hm.old, Function.update_eq_self])
  | accepted hm | enqueued hm | dequeued hm | closed hm | finished hm =>
      exact frame hm (h.moves nofun)
  | called hm follows =>
      refine frame hm ?_
      refine Handles.moves (h.goOn _) fun j req hj _ => ?_
      obtain rfl := Tid.worker.inj hj
      rw [Function.update_self]
      rfl
  | returned hm rest => exact frame hm (h.leave nofun)
  | got | added | answered | opened | fileClosed | forked | wrote => exact h.goOn _
  | _ => exact h

theorem handles_reachable (h : Reachable (start n junk cap byte listenfd) s) :
    Handles s.look s.rest :=
  h.changes (I := fun s => Handles s.look s.rest) nofun
    fun _ _ _ _ hi hc => handles_change hi hc

end WebServer.Server
