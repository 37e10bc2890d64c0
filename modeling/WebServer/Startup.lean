import WebServer.Numerals
import WebServer.ServedRequests

namespace WebServer.Startup

open Message Server ServedRequests
open Monitor (Exec Spurious exec_others spurious_others)
open Numerals (atoi scanInt scanInt_signed)
open RequestCalls (Call Calls)
open RequestQueue (Tid QueueState Request ThreadsStats Timeval startPc)
open ServerLog (LogState)

structure Args where
  port : Int
  numThreads : Int
  queSize : Int

/-- How `main` can end: `app_error` prints the message, `unix_error` adds a text for
`errno`. -/
inductive Failure
  | app (msg : Bytes)
  | unix (msg : Bytes)

def getargs (argv : List Bytes) : Except Failure Args :=
  match argv with
  | _ :: port :: threads :: size :: _ =>
      let args : Args := ⟨atoi port, atoi threads, atoi size⟩
      if args.numThreads < 1 ∨ args.queSize < 1 then .error (.app (str "invalid parameters"))
      else .ok args
  | _ => .error (.app (str "Usage: ./server <port> <threads> <queue size>"))

/-- A worker has its id, and then its counters, before its loop. -/
inductive WorkerPc
  | absent
  | args (threadId : Int)
  | malloc (threadId : Int)
  | loop

inductive MainPc
  | malloc (i : Nat)
  | create (i : Nat) (threadId : Int)
  | loop

/-- The process ends with a call of `exit`. A thread that is not in its loop yet does
nothing in `system`. -/
structure Program (n : Nat) where
  main : MainPc
  worker : Fin n → WorkerPc
  ended : Bool
  system : System n

variable {n : Nat}

def enter (s : System n) (t : Tid n) (p : RequestQueue.Pc) : System n :=
  { s with queue := { s.queue with phase := Function.update s.queue.phase t (.run p) } }

def Program.test (P : Program n) (i : Nat) : Program n :=
  if i < n then { P with main := .malloc i }
  else { P with main := .loop, system := enter P.system .main (.main .accept) }

/-- `main` calls `Malloc` for the arguments of a worker, or `pthread_create`. -/
def Program.mainMove (P : Program n) (ok : Bool) : Option (Program n) :=
  match P.main with
  | .malloc i =>
      some (if ok then { P with main := .create i (i + 1) } else { P with ended := true })
  | .create i threadId =>
      if hi : i < n then
        let worker := Function.update P.worker ⟨i, hi⟩ (.args threadId)
        some (if ok then { P with worker := worker }.test (i + 1) else { P with ended := true })
      else none
  | .loop => none

/-- A worker copies its id and frees its arguments, or calls `Malloc` for its counters. -/
def Program.workerMove (P : Program n) (i : Fin n) (ok : Bool) : Option (Program n) :=
  match P.worker i with
  | .args threadId => some { P with worker := Function.update P.worker i (.malloc threadId) }
  | .malloc threadId => some (
      if ok then { P with
        worker := Function.update P.worker i .loop,
        system := enter P.system (.worker i) (.worker ⟨threadId, 0, 0, 0, 0⟩ (.dequeue .lock)) }
      else { P with ended := true })
  | .absent | .loop => none

inductive StepOf (T : Tid n → Prop) : System n → System n → Prop
  | queue {s s' τ} (t : Tid n) (a : Frame) (ht : T t) (live : s.queue.data.running = true)
      (h : Exec (queueMachine n) t s.queue τ)
      (he : s.queueEffect τ a t (s.queue.place t) (τ.place t) = some s') : StepOf T s s'
  | queueSpurious {s τ} (t : Tid n) (ht : T t) (live : s.queue.data.running = true)
      (h : Spurious t s.queue τ) : StepOf T s { s with queue := τ }
  | log {s s' μ} (i : Fin n) (ht : T (.worker i)) (live : s.queue.data.running = true)
      (h : Exec (logMachine n) i s.log μ)
      (he : s.logEffect μ i (s.log.place i) (μ.place i) = some s') : StepOf T s s'
  | logSpurious {s μ} (i : Fin n) (ht : T (.worker i)) (live : s.queue.data.running = true)
      (h : Spurious i s.log μ) : StepOf T s { s with log := μ }
  | call {s s' stats req dispatch c k} (i : Fin n) (a : Answer) (ht : T (.worker i))
      (live : s.queue.data.running = true)
      (hp : s.queue.place (.worker i) = .worker stats (.handle req dispatch))
      (hr : s.rest i = some (.call c k)) (he : s.callEffect i req.connfd c k a = some s') :
      StepOf T s s'
  | child {s s'} (pid : Nat) (m : ChildMove) (he : s.childEffect pid m = some s') : StepOf T s s'

def Program.InLoop (P : Program n) : Tid n → Prop
  | .main => P.main = .loop
  | .worker i => P.worker i = .loop

inductive Step : Program n → Program n → Prop
  | main {P P'} (ok : Bool) (live : P.ended = false) (h : P.mainMove ok = some P') : Step P P'
  | worker {P P'} (i : Fin n) (ok : Bool) (live : P.ended = false)
      (h : P.workerMove i ok = some P') : Step P P'
  | system {P s'} (h : StepOf (fun t => P.ended = false ∧ P.InLoop t) P.system s') :
      Step P { P with system := s' }

inductive Reachable (P₀ : Program n) : Program n → Prop
  | start : Reachable P₀ P₀
  | next {P P'} : Reachable P₀ P → Step P P' → Reachable P₀ P'

def Program.start (n : Nat) (junk : Nat → Request) (cap : Nat) (byte : Nat → ServerLog.Byte)
    (listenfd : Int) : Program n :=
  (⟨.malloc 0, fun _ => .absent, false, Server.start n junk cap byte listenfd⟩ : Program n).test 0

/-- What the system answers to `Open_listenfd`, and whether there is memory for the queue,
the thread pool and the log, with what it happens to hold. -/
structure Env where
  listenfd : Int → Option Int
  memory : Bool
  junk : Nat → Request
  byte : Nat → ServerLog.Byte

/-- `main` as far as its `for`. -/
def main (argv : List Bytes) (env : Env) : Except Failure (Σ n, Program n) := do
  let args ← getargs argv
  match env.listenfd args.port with
  | none => .error (.unix (str "Open_listenfd error"))
  | some listenfd =>
      if env.memory then
        .ok ⟨args.numThreads.toNat,
          .start args.numThreads.toNat env.junk args.queSize.toNat env.byte listenfd⟩
      else .error (.unix (str "Malloc error"))

variable {cap : Nat} {junk : Nat → Request} {byte : Nat → ServerLog.Byte} {listenfd : Int}
  {s s' s₀ : System n} {P P' P₀ : Program n} {t : Tid n} {i : Fin n} {T : Tid n → Prop} {ok : Bool}
  {id : Int} {p : RequestQueue.Pc}

theorem enter_eq (h : s.queue.phase t = .run p) : enter s t p = s := by
  rw [enter, ← h, Function.update_eq_self]

theorem StepOf.step (h : StepOf T s s') : Server.Step s s' := by
  cases h with
  | queue t a ht live h he => exact .queue t a live h he
  | queueSpurious t ht live h => exact .queueSpurious t live h
  | log i ht live h he => exact .log i live h he
  | logSpurious i ht live h => exact .logSpurious i live h
  | call i a ht live hp hr he => exact .call i a live hp hr he
  | child pid m he => exact .child pid m he

theorem StepOf.others (h : StepOf T s s') (ht : ¬ T t) (hp : s.queue.phase t = .run p) :
    s'.queue.phase t = .run p := by
  cases h with
  | queue u a hu live h he =>
      rw [(queueEffect_parts he).1]
      refine exec_others h ?_ hp
      rintro rfl
      exact ht hu
  | queueSpurious u hu live h => exact spurious_others h hp
  | log i hu live h he => rwa [(logEffect_parts he).1]
  | logSpurious => exact hp
  | call i a hu live hpl hr he => rwa [(callEffect_parts he).1]
  | child pid m he => rwa [(childEffect_parts he).1]

def MainPc.created (n : Nat) : MainPc → Nat
  | .malloc i | .create i _ => i
  | .loop => n

def AtStart (s : System n) (t : Tid n) : Prop := s.queue.phase t = .run (startPc t)

def WorkerPc.Fits (s : System n) (c : Nat) (i : Fin n) : WorkerPc → Prop
  | .absent => c ≤ i ∧ AtStart s (.worker i)
  | .args threadId | .malloc threadId => i < c ∧ threadId = i + 1 ∧ AtStart s (.worker i)
  | .loop => i < c

def MainPc.Fits (s : System n) : MainPc → Prop
  | .malloc i => i < n ∧ AtStart s .main
  | .create i threadId => i < n ∧ threadId = i + 1 ∧ AtStart s .main
  | .loop => True

/-- The system is one that all threads have run in from the start. -/
structure Begun (s₀ : System n) (P : Program n) : Prop where
  system : Server.Reachable s₀ P.system
  main : P.main.Fits P.system
  worker : ∀ i, (P.worker i).Fits P.system (P.main.created n) i

theorem WorkerPc.Fits.more {w : WorkerPc} {c : Nat} (h : w.Fits s c i) (hi : (i : Nat) ≠ c) :
    w.Fits s (c + 1) i := by
  cases w with
  | absent => exact ⟨by have := h.1; omega, h.2⟩
  | args id | malloc id => exact ⟨h.1.trans (Nat.lt_succ_self c), h.2⟩
  | loop => exact Nat.lt_succ_of_lt h

theorem WorkerPc.Fits.absent {w : WorkerPc} {c : Nat} (h : w.Fits s c i) (hi : c ≤ i) :
    AtStart s (.worker i) := by
  cases w with
  | absent => exact h.2
  | args id | malloc id => exact absurd hi (by have := h.1; omega)
  | loop => exact absurd hi (not_le.2 h)

theorem Begun.create (h : Begun s₀ P) {k : Nat} (hmain : P.main = .create k id) (hk : k < n) :
    Begun s₀ ({ P with worker := Function.update P.worker ⟨k, hk⟩ (.args id) }.test (k + 1)) := by
  obtain ⟨hsystem, hfits, hworker⟩ := h
  rw [hmain] at hfits hworker
  obtain ⟨-, hid, hstart⟩ := hfits
  have hworkers (i : Fin n) :
      (Function.update P.worker ⟨k, hk⟩ (.args id) i).Fits P.system (k + 1) i := by
    by_cases hi : i = ⟨k, hk⟩
    · subst i
      rw [Function.update_self]
      exact ⟨Nat.lt_succ_self k, hid, (hworker ⟨k, hk⟩).absent le_rfl⟩
    · rw [Function.update_of_ne hi]
      exact (hworker i).more fun heq => hi (Fin.ext heq)
  rw [Program.test]
  split
  · next hmore => exact ⟨hsystem, ⟨hmore, hstart⟩, hworkers⟩
  · next hlast =>
    obtain rfl : k + 1 = n := by omega
    have hsame : enter P.system .main (.main .accept) = P.system := enter_eq hstart
    dsimp only
    rw [hsame]
    exact ⟨hsystem, trivial, hworkers⟩

theorem begun_main (h : Begun s₀ P) (hmove : P.mainMove ok = some P') : Begun s₀ P' := by
  rw [Program.mainMove] at hmove
  split at hmove
  · next i hmain =>
    obtain rfl := Option.some.inj hmove
    obtain ⟨hsystem, hfits, hworker⟩ := h
    rw [hmain] at hfits hworker
    split
    · exact ⟨hsystem, ⟨hfits.1, rfl, hfits.2⟩, hworker⟩
    · exact ⟨hsystem, by rw [hmain]; exact hfits, by rw [hmain]; exact hworker⟩
  · next i threadId hmain =>
    split at hmove
    · next hi =>
      obtain rfl := Option.some.inj hmove
      split
      · exact h.create hmain hi
      · exact ⟨h.system, h.main, h.worker⟩
    · cases hmove
  · cases hmove

theorem begun_worker (h : Begun s₀ P) (hmove : P.workerMove i ok = some P') : Begun s₀ P' := by
  have moves {w : WorkerPc} (hw : w.Fits P.system (P.main.created n) i) (j : Fin n) :
      (Function.update P.worker i w j).Fits P.system (P.main.created n) j :=
    (Function.forall_update_iff P.worker fun j w => w.Fits P.system (P.main.created n) j).2
      ⟨hw, fun j _ => h.worker j⟩ j
  have hfits := h.worker i
  rw [Program.workerMove] at hmove
  split at hmove
  · next threadId hargs =>
    obtain rfl := Option.some.inj hmove
    rw [hargs] at hfits
    exact ⟨h.system, h.main, moves (w := .malloc threadId) hfits⟩
  · next threadId hmalloc =>
    obtain rfl := Option.some.inj hmove
    rw [hmalloc] at hfits
    obtain ⟨hcreated, rfl, hstart⟩ := hfits
    have hsame : enter P.system (.worker i) (.worker ⟨i + 1, 0, 0, 0, 0⟩ (.dequeue .lock)) =
        P.system := enter_eq hstart
    split
    · rw [hsame]
      exact ⟨h.system, h.main, moves (w := .loop) hcreated⟩
    · exact ⟨h.system, h.main, h.worker⟩
  · cases hmove
  · cases hmove

theorem WorkerPc.Fits.mono {w : WorkerPc} {c : Nat} (h : w.Fits s c i)
    (hs : w ≠ .loop → AtStart s (.worker i) → AtStart s' (.worker i)) : w.Fits s' c i := by
  cases w with
  | absent => exact ⟨h.1, hs (by simp) h.2⟩
  | args id | malloc id => exact ⟨h.1, h.2.1, hs (by simp) h.2.2⟩
  | loop => exact h

theorem MainPc.Fits.mono {w : MainPc} (h : w.Fits s)
    (hs : w ≠ .loop → AtStart s .main → AtStart s' .main) : w.Fits s' := by
  cases w with
  | malloc k => exact ⟨h.1, hs (by simp) h.2⟩
  | create k id => exact ⟨h.1, h.2.1, hs (by simp) h.2.2⟩
  | loop => trivial

theorem begun_system (h : Begun s₀ P)
    (hs : StepOf (fun t => P.ended = false ∧ P.InLoop t) P.system s') :
    Begun s₀ { P with system := s' } where
  system := h.system.next hs.step
  main := h.main.mono fun hmain => hs.others fun hloop => hmain hloop.2
  worker i := (h.worker i).mono fun hworker => hs.others fun hloop => hworker hloop.2

theorem begun_start (hn : 1 ≤ n) :
    Begun (Server.start n junk cap byte listenfd) (.start n junk cap byte listenfd) := by
  rw [Program.start, Program.test, if_pos (show 0 < n from hn)]
  exact ⟨.start, ⟨hn, rfl⟩, fun i => ⟨Nat.zero_le _, rfl⟩⟩

theorem begun_reachable (h₀ : Begun s₀ P₀) (h : Reachable P₀ P) : Begun s₀ P := by
  induction h with
  | start => exact h₀
  | next _ hs ih =>
      cases hs with
      | main ok live hmove => exact begun_main ih hmove
      | worker i ok live hmove => exact begun_worker ih hmove
      | system hs => exact begun_system ih hs

theorem getargs_ok {argv : List Bytes} {args : Args} (h : getargs argv = .ok args) :
    1 ≤ args.numThreads ∧ 1 ≤ args.queSize := by
  unfold getargs at h
  split at h
  · dsimp only at h
    split at h
    · cases h
    · next hvalid =>
      obtain rfl := Except.ok.inj h
      dsimp only at hvalid ⊢
      omega
  · cases h

theorem atoi_signed {m : Int} (hlow : -2 ^ 31 ≤ m) (hhigh : m < 2 ^ 31) : atoi (signed m) = m := by
  have hscan : scanInt ([] ++ signed m ++ []) = some m :=
    scanInt_signed hlow hhigh (by simp) (by simp)
  rw [List.nil_append, List.append_nil] at hscan
  rw [atoi, hscan]
  rfl

theorem getargs_decimal (name : Bytes) {port threads size : Int} (hport : -2 ^ 31 ≤ port)
    (hport' : port < 2 ^ 31) (hthreads : 1 ≤ threads) (hthreads' : threads < 2 ^ 31)
    (hsize : 1 ≤ size) (hsize' : size < 2 ^ 31) (more : List Bytes) :
    getargs (name :: signed port :: signed threads :: signed size :: more) =
      .ok ⟨port, threads, size⟩ := by
  unfold getargs
  dsimp only
  rw [atoi_signed hport hport', atoi_signed (by omega) hthreads', atoi_signed (by omega) hsize',
    if_neg (by omega)]

theorem main_ok {argv : List Bytes} {env : Env} {x : Σ n, Program n} (h : main argv env = .ok x) :
    ∃ args listenfd, getargs argv = .ok args ∧ x = ⟨args.numThreads.toNat,
      .start args.numThreads.toNat env.junk args.queSize.toNat env.byte listenfd⟩ := by
  unfold main at h
  cases hargs : getargs argv with
  | error e =>
      rw [hargs] at h
      cases h
  | ok args =>
      rw [hargs] at h
      dsimp only [bind, Except.bind] at h
      split at h
      · cases h
      · next listenfd hfd =>
        split at h
        · exact ⟨args, listenfd, rfl, (Except.ok.inj h).symm⟩
        · cases h

def twoThreads : Env := ⟨fun _ => some 3, true, fun _ => ⟨0, 0, 0⟩, fun _ => 0⟩

theorem twoThreads_starts : main [str "server", signed 8080, signed 2, signed 2] twoThreads =
    .ok ⟨2, .start 2 twoThreads.junk 2 twoThreads.byte 3⟩ := by
  unfold main
  rw [getargs_decimal (str "server") (by decide) (by decide) (by decide) (by decide) (by decide)
    (by decide) []]
  rfl

end WebServer.Startup
