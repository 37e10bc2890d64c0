import WebServer.Counting
import WebServer.RequestQueue
import WebServer.RingBuffer

namespace WebServer.QueueRefinement

open Monitor RequestQueue RingBuffer

variable {n cap : Nat} {Script : Type} {handle : Handler Script} {junk : Nat → Request}
  {σ : QueueState n}

def MainPc.holds : MainPc → Bool
  | .check _ | .wait _ | .unlock _ => true
  | .enqueue _ s => match s with
    | .lock => false
    | _ => true
  | _ => false

def WorkerPc.holds : WorkerPc → Bool
  | .dequeue s => match s with
    | .lock => false
    | _ => true
  | .finish s => match s with
    | .lock => false
    | _ => true
  | _ => false

def holds : Pc → Bool
  | .main p => MainPc.holds p
  | .worker _ p => WorkerPc.holds p

/-- From the decrement of `dequeueing_size` to that of `size`, and in `enqueue`
between the two increments. -/
def serving : Pc → Bool
  | .main p => match p with
    | .enqueue _ .dequeueingSize => true
    | _ => false
  | .worker _ p => match p with
    | .dequeue (.time _) | .dequeue (.unlock _ _) => true
    | .timersub _ _ | .handle _ _ | .close _ | .finish .lock | .finish .size => true
    | _ => false

/-- A worker between the return of `dequeue` and the critical section of
`finishHandling`. -/
def inService : Pc → Bool
  | .worker _ p => match p with
    | .timersub _ _ | .handle _ _ | .close _ | .finish .lock => true
    | _ => false
  | _ => false

theorem enqueue_bracketed (r : Request) (s : EnqueuePc) :
    (enqueue r s : QueueInstr n Script).Bracketed holds (.main (.enqueue r s)) := by
  cases s with
  | lock | wait | signal | unlock => simp [enqueue, Instr.Bracketed, holds, MainPc.holds]
  | check =>
      simp only [enqueue, bracketed_stmt]
      intro d
      split <;> rfl
  | _ => simp [enqueue, bracketed_stmt, holds, MainPc.holds]

theorem dequeue_bracketed (t : Tid n) (stats : ThreadsStats) (s : DequeuePc) :
    (dequeue t stats s : QueueInstr n Script).Bracketed holds (.worker stats (.dequeue s)) := by
  cases s with
  | lock | wait | unlock => simp [dequeue, Instr.Bracketed, holds, WorkerPc.holds]
  | check =>
      simp only [dequeue, bracketed_stmt]
      intro d
      split <;> rfl
  | time req =>
      intro d e d' q h
      cases e <;> simp at h
      obtain ⟨-, rfl⟩ := h
      rfl
  | _ => simp [dequeue, bracketed_stmt, holds, WorkerPc.holds]

theorem finishHandling_bracketed (t : Tid n) (stats : ThreadsStats) (s : FinishPc) :
    (finishHandling t stats s : QueueInstr n Script).Bracketed holds
      (.worker stats (.finish s)) := by
  cases s with
  | lock | signal | unlock => simp [finishHandling, Instr.Bracketed, holds, WorkerPc.holds]
  | size => simp [finishHandling, bracketed_stmt, holds, WorkerPc.holds]

theorem code_bracketed (t : Tid n) (p : Pc) : (code handle t p).Bracketed holds p := by
  cases p with
  | main p =>
      cases p with
      | accept =>
          intro d e d' q h
          rcases goes_accept ⟨e, h⟩ with ⟨-, c, rfl⟩ | ⟨-, rfl⟩ <;> rfl
      | stamp c =>
          intro d e d' q h
          obtain ⟨-, now, rfl⟩ := goes_stamp ⟨e, h⟩
          rfl
      | check c =>
          simp only [code, mainLoop, bracketed_stmt]
          intro d
          split <;> rfl
      | lock | wait | unlock =>
          simp [code, mainLoop, Instr.Bracketed, holds, MainPc.holds]
      | enqueue r s => exact enqueue_bracketed r s
  | worker stats p =>
      cases p with
      | dequeue s => exact dequeue_bracketed t stats s
      | finish s => exact finishHandling_bracketed t stats s
      | timersub req now =>
          simp [code, workerThread, bracketed_stmt, holds, WorkerPc.holds]
      | handle req dispatch =>
          intro d e d' q h
          rcases goes_handle ⟨e, h⟩ with ⟨-, stats', -, -, rfl⟩ | ⟨-, -, rfl⟩ <;> rfl
      | close req =>
          intro d e d' q h
          rcases goes_close handle ⟨e, h⟩ with ⟨-, rfl⟩ | ⟨-, rfl⟩ <;> rfl

theorem goes_serving {t : Tid n} {p q : Pc} {d d' : Shared n} (h : (code handle t p).Goes d q d') :
    d'.queue.size - d'.queue.dequeueingSize = d.queue.size - d.queue.dequeueingSize +
      (if serving q then 1 else 0) - (if serving p then 1 else 0) := by
  cases goes_edge h with
  | grown | enqueued | dequeued | finished =>
      simp [serving]
      omega
  | _ => simp [serving]

theorem start_place (t : Tid n) : (start n junk cap).place t = startPc t := rfl

theorem serving_eq (h : Reachable (machine n handle) (start n junk cap) σ) :
    σ.data.queue.size - σ.data.queue.dequeueingSize = countIn serving σ.place := by
  refine h.counter serving (fun d => d.queue.size - d.queue.dequeueingSize) ?_
    fun t p d q d' hg => goes_serving hg
  rw [countIn_eq_zero.2 fun t => by cases t <;> rfl]
  rfl

def known (p : Pc) (d : Shared n) : Prop :=
  match p with
  | .worker _ (.finish .size) => d.queue.dequeueingSize < d.queue.size
  | _ => True

theorem known_reachable (h : Reachable (machine n handle) (start n junk cap) σ) (t : Tid n) :
    known (σ.place t) σ.data := by
  unfold known
  split
  · next stats hp =>
    have hpos : 0 < countIn serving σ.place := countIn_pos.2 ⟨t, by rw [hp]; rfl⟩
    have heq := serving_eq h
    omega
  · trivial

def ops (tr : List (Event n)) : List (Op Request) :=
  tr.filterMap fun
    | .enqueued r => some (.push r)
    | .dequeued _ r => some (.pop r)
    | .finished _ => some .finish
    | _ => none

theorem ops_snoc (tr : List (Event n)) (e : Event n) : ops (tr ++ [e]) = ops tr ++ ops [e] :=
  List.filterMap_append

/-- The fields of the ring buffer stand for the queue `q`. -/
structure Rep (d : Queue) (q : Fifo Request cap) : Prop where
  capacity : d.capacity = cap
  front : d.front < cap
  rear : d.rear = (d.front + q.pending.length) % cap
  slots : contents d.buffer cap d.front q.pending.length = q.pending
  waiting : d.dequeueingSize = q.pending.length
  total : d.size = q.pending.length + q.inService

def Refines (cap : Nat) (d : Shared n) : Prop :=
  ∃ q : Fifo Request cap, Fifo.After (ops d.trace) q ∧ Rep d.queue q

structure Pushing (d : Queue) (q : Fifo Request cap) (r : Request) : Prop where
  capacity : d.capacity = cap
  front : d.front < cap
  rear : d.rear = (d.front + (q.pending.length + 1)) % cap
  slots : contents d.buffer cap d.front (q.pending.length + 1) = q.pending ++ [r]
  waiting : d.dequeueingSize = q.pending.length

def EnqueuePc.outline (cap : Nat) (d : Shared n) (r : Request) : EnqueuePc → Prop
  | .lock => True
  | .check | .signal | .unlock => Refines cap d
  | .wait => Refines cap d ∧ d.queue.size = cap
  | .connfd => Refines cap d ∧ d.queue.size ≠ cap
  | .arrival => Refines cap d ∧ d.queue.size ≠ cap ∧ (d.queue.buffer d.queue.rear).connfd = r.connfd
  | .rear => Refines cap d ∧ d.queue.size ≠ cap ∧ d.queue.buffer d.queue.rear = r
  | .size => ∃ q : Fifo Request cap, Fifo.After (ops d.trace) q ∧ Pushing d.queue q r ∧
      d.queue.size = q.pending.length + q.inService ∧ d.queue.size < cap
  | .dequeueingSize => ∃ q : Fifo Request cap, Fifo.After (ops d.trace) q ∧ Pushing d.queue q r ∧
      d.queue.size = q.pending.length + q.inService + 1 ∧ d.queue.size ≤ cap

def DequeuePc.outline (cap : Nat) (d : Shared n) : DequeuePc → Prop
  | .lock => True
  | .check => Refines cap d
  | .wait => Refines cap d ∧ d.queue.dequeueingSize = 0
  | .read => Refines cap d ∧ d.queue.dequeueingSize ≠ 0
  | .front req => ∃ q : Fifo Request cap, Fifo.After (ops d.trace) q ∧ Rep d.queue q ∧
      q.pending.head? = some req
  | .decrement req => ∃ q q' : Fifo Request cap, Fifo.After (ops d.trace) q ∧ q.pop = some (req, q') ∧
      Rep { d.queue with dequeueingSize := d.queue.dequeueingSize - 1 } q'
  | .time _ | .unlock _ _ => Refines cap d

def outline (cap : Nat) : Pc → Shared n → Prop
  | .main p, d => match p with
    | .check _ | .unlock _ => Refines cap d
    | .wait _ => Refines cap d ∧ d.queue.size = cap
    | .enqueue r s => EnqueuePc.outline cap d r s
    | _ => True
  | .worker _ p, d => match p with
    | .dequeue s => DequeuePc.outline cap d s
    | .finish s => match s with
      | .lock => True
      | _ => Refines cap d
    | _ => True

theorem Rep.size_le {d : Queue} {q : Fifo Request cap} (h : Rep d q) : d.size ≤ cap := by
  have hr := q.room
  rw [h.total]
  omega

theorem Rep.length_lt {d : Queue} {q : Fifo Request cap} (h : Rep d q) (hs : d.size ≠ cap) :
    q.pending.length + q.inService < cap := by
  have hle := h.size_le
  have ht := h.total
  omega

theorem Rep.write {d : Queue} {q : Fifo Request cap} (h : Rep d q) (hs : d.size ≠ cap)
    (slot : Request) : Rep { d with buffer := Function.update d.buffer d.rear slot } q := by
  have hlt := h.length_lt hs
  refine ⟨h.capacity, h.front, h.rear, ?_, h.waiting, h.total⟩
  rw [h.rear]
  exact (contents_update _ (by omega) _).trans h.slots

theorem Rep.advance {d : Queue} {q : Fifo Request cap} (h : Rep d q) (hs : d.size ≠ cap) {r : Request}
    (hr : d.buffer d.rear = r) : Pushing { d with rear := (d.rear + 1) % d.capacity } q r := by
  have hlt := h.length_lt hs
  refine ⟨h.capacity, h.front, ?_, ?_, h.waiting⟩
  · simp only [h.rear, h.capacity, Nat.mod_add_mod, Nat.add_assoc]
  · rw [contents_succ, h.slots, ← h.rear, hr]

theorem Pushing.pushed {d : Queue} {q : Fifo Request cap} {r : Request} (h : Pushing d q r)
    (hs : d.size = q.pending.length + q.inService + 1) (hle : d.size ≤ cap) :
    ∃ q' : Fifo Request cap, q.push r = some q' ∧
      Rep { d with dequeueingSize := d.dequeueingSize + 1 } q' := by
  obtain ⟨q', hq, hp, hi⟩ := Fifo.push_room q r (by omega)
  refine ⟨q', hq, h.capacity, h.front, ?_, ?_, ?_, ?_⟩
  · simp only [hp, List.length_append, List.length_singleton]
    exact h.rear
  · simp only [hp, List.length_append, List.length_singleton]
    exact h.slots
  · simp only [hp, List.length_append, List.length_singleton, h.waiting]
    omega
  · simp only [hp, hi, List.length_append, List.length_singleton, hs]
    omega

theorem Rep.head {d : Queue} {q : Fifo Request cap} (h : Rep d q) (hd : d.dequeueingSize ≠ 0) :
    q.pending.head? = some (d.buffer d.front) := by
  have hw := h.waiting
  obtain ⟨m, hm⟩ : ∃ m, q.pending.length = m + 1 := ⟨q.pending.length - 1, by omega⟩
  rw [← h.slots, hm, contents_pop _ h.front]
  rfl

theorem Rep.popped {d : Queue} {q : Fifo Request cap} (h : Rep d q) {req : Request}
    (hr : q.pending.head? = some req) :
    ∃ q' : Fifo Request cap, q.pop = some (req, q') ∧ Rep { d with
      front := (d.front + 1) % d.capacity, dequeueingSize := d.dequeueingSize - 1 } q' := by
  obtain ⟨rest, hrest⟩ := List.head?_eq_some_iff.1 hr
  obtain ⟨q', hq, hp, hi⟩ := Fifo.pop_cons q hrest
  have hf := h.front
  have hs := h.slots
  have hw := h.waiting
  have ht := h.total
  rw [hrest, List.length_cons] at hs hw ht
  rw [contents_pop _ hf, List.cons.injEq] at hs
  refine ⟨q', hq, h.capacity, ?_, ?_, ?_, ?_, ?_⟩
  · rw [h.capacity]
    exact Nat.mod_lt _ (by omega)
  · simp only [h.rear, h.capacity, hp, hrest, List.length_cons, Nat.mod_add_mod]
    congr 1
    omega
  · simp only [h.capacity, hp]
    exact hs.2
  · simp only [hp, hw]
    omega
  · simp only [hp, hi, ht]
    omega

theorem Rep.finished {d : Queue} {q : Fifo Request cap} (h : Rep d q)
    (hs : d.dequeueingSize < d.size) :
    ∃ q' : Fifo Request cap, q.finish = some q' ∧ Rep { d with size := d.size - 1 } q' := by
  have hw := h.waiting
  have ht := h.total
  obtain ⟨q', hq, hp, hi⟩ := Fifo.finish_pos q (by omega)
  refine ⟨q', hq, h.capacity, h.front, ?_, ?_, ?_, ?_⟩
  · rw [hp]; exact h.rear
  · rw [hp]; exact h.slots
  · rw [hp]; exact hw
  · simp only [hp, hi, ht]
    omega

theorem verified_held {f : Shared n → Shared n × Pc} {p : Pc} (hp : holds p = true)
    (h : ∀ d, known p d → outline cap p d → outline cap (f d).2 (f d).1) :
    (stmt f : QueueInstr n Script).Verified holds known (Refines cap) (outline cap) p := by
  intro d e d' q hf hk
  obtain ⟨rfl, rfl⟩ := goes_stmt.1 ⟨e, hf⟩
  rw [if_pos hp]
  exact h d hk

theorem outside {d d' : Shared n} (hq : d'.queue = d.queue) (ht : ops d'.trace = ops d.trace) :
    (Refines cap d → Refines cap d') ∧ ∀ r, outline cap r d → outline cap r d' := by
  have hr : Refines cap d → Refines cap d' := fun h => by rwa [Refines, hq, ht]
  refine ⟨hr, fun r h => ?_⟩
  cases r with
  | main p =>
      cases p with
      | enqueue r s => cases s <;> simp_all [outline, EnqueuePc.outline]
      | _ => simp_all [outline]
  | worker stats p =>
      cases p with
      | dequeue s => cases s <;> simp_all [outline, DequeuePc.outline]
      | finish s => cases s <;> simp_all [outline]
      | _ => trivial

theorem enqueue_verified (r : Request) (s : EnqueuePc) :
    (enqueue r s : QueueInstr n Script).Verified holds known (Refines cap) (outline cap)
      (.main (.enqueue r s)) := by
  cases s with
  | lock | unlock => exact fun d _ hd => hd
  | wait => exact fun d => ⟨fun _ hd => hd.1, fun _ hd => hd⟩
  | signal => exact fun _ d _ hd => hd
  | check =>
      apply verified_held rfl
      intro d _ hd
      obtain ⟨q, hq, hrep⟩ := hd
      have hd : Refines cap d := ⟨q, hq, hrep⟩
      by_cases hs : d.queue.size = d.queue.capacity
      · simp only [hs, if_true]
        exact ⟨hd, by rw [hs, hrep.capacity]⟩
      · simp only [hs, if_false]
        exact ⟨hd, by rwa [← hrep.capacity]⟩
  | connfd =>
      apply verified_held rfl
      intro d _ hd
      obtain ⟨⟨q, hq, hrep⟩, hs⟩ := hd
      exact ⟨⟨q, hq, hrep.write hs _⟩, hs, by simp⟩
  | arrival =>
      apply verified_held rfl
      intro d _ hd
      obtain ⟨⟨q, hq, hrep⟩, hs, hc⟩ := hd
      exact ⟨⟨q, hq, hrep.write hs _⟩, hs, by simp [hc]⟩
  | rear =>
      apply verified_held rfl
      intro d _ hd
      obtain ⟨⟨q, hq, hrep⟩, hs, hr⟩ := hd
      have hle := hrep.size_le
      exact ⟨q, hq, hrep.advance hs hr, hrep.total, by simp only; omega⟩
  | size =>
      apply verified_held rfl
      intro d _ hd
      obtain ⟨q, hq, hp, ht, hlt⟩ := hd
      exact ⟨q, hq, ⟨hp.capacity, hp.front, hp.rear, hp.slots, hp.waiting⟩, by simp only; omega,
        by simp only; omega⟩
  | dequeueingSize =>
      apply verified_held rfl
      intro d _ hd
      obtain ⟨q, hq, hp, ht, hle⟩ := hd
      obtain ⟨q', hpush, hrep⟩ := hp.pushed ht hle
      refine ⟨q', ?_, hrep⟩
      simp only [ops_snoc]
      exact hq.snoc (.push r hpush)

theorem dequeue_verified (t : Tid n) (stats : ThreadsStats) (s : DequeuePc) :
    (dequeue t stats s : QueueInstr n Script).Verified holds known (Refines cap) (outline cap)
      (.worker stats (.dequeue s)) := by
  cases s with
  | lock | unlock => exact fun d _ hd => hd
  | wait => exact fun d => ⟨fun _ hd => hd.1, fun _ hd => hd⟩
  | check =>
      apply verified_held rfl
      intro d _ hd
      by_cases hs : d.queue.dequeueingSize = 0
      · simp only [hs, if_true]
        exact ⟨hd, hs⟩
      · simp only [hs, if_false]
        exact ⟨hd, hs⟩
  | read =>
      apply verified_held rfl
      intro d _ hd
      obtain ⟨⟨q, hq, hrep⟩, hs⟩ := hd
      exact ⟨q, hq, hrep, hrep.head hs⟩
  | front req =>
      apply verified_held rfl
      intro d _ hd
      obtain ⟨q, hq, hrep, hhead⟩ := hd
      obtain ⟨q', hpop, hrep'⟩ := hrep.popped hhead
      exact ⟨q, q', hq, hpop, hrep'⟩
  | decrement req =>
      apply verified_held rfl
      intro d _ hd
      obtain ⟨q, q', hq, hpop, hrep⟩ := hd
      refine ⟨q', ?_, hrep⟩
      simp only [ops_snoc]
      exact hq.snoc (.pop req hpop)
  | time req =>
      intro d e d' q hf _
      obtain ⟨rfl, now, rfl⟩ := goes_time t ⟨e, hf⟩
      exact fun hd => hd

theorem finishHandling_verified (t : Tid n) (stats : ThreadsStats) (s : FinishPc) :
    (finishHandling t stats s : QueueInstr n Script).Verified holds known (Refines cap) (outline cap)
      (.worker stats (.finish s)) := by
  cases s with
  | lock | unlock => exact fun d _ hd => hd
  | signal => exact fun _ d _ hd => hd
  | size =>
      apply verified_held rfl
      intro d hk hd
      obtain ⟨q, hq, hrep⟩ := hd
      obtain ⟨q', hfin, hrep'⟩ := hrep.finished hk
      refine ⟨q', ?_, hrep'⟩
      simp only [ops_snoc]
      exact hq.snoc (.finish hfin)

theorem code_verified (t : Tid n) (p : Pc) :
    (code handle t p).Verified holds known (Refines cap) (outline cap) p := by
  cases p with
  | main p =>
      cases p with
      | lock | unlock => exact fun d _ hd => hd
      | wait => exact fun d => ⟨fun _ hd => hd.1, fun _ hd => hd⟩
      | check c =>
          apply verified_held rfl
          intro d _ hd
          obtain ⟨q, hq, hrep⟩ := hd
          have hd : Refines cap d := ⟨q, hq, hrep⟩
          by_cases hs : d.queue.size = d.queue.capacity
          · simp only [hs, if_true]
            exact ⟨hd, by rw [hs, hrep.capacity]⟩
          · simp only [hs, if_false]
            exact hd
      | accept =>
          intro d e d' q hf _
          rcases goes_accept ⟨e, hf⟩ with ⟨rfl, -⟩ | ⟨rfl, -⟩ <;> exact outside rfl rfl
      | stamp c =>
          intro d e d' q hf _
          obtain ⟨rfl, -⟩ := goes_stamp ⟨e, hf⟩
          exact outside rfl rfl
      | enqueue r s => exact enqueue_verified r s
  | worker stats p =>
      cases p with
      | dequeue s => exact dequeue_verified t stats s
      | finish s => exact finishHandling_verified t stats s
      | timersub req now =>
          intro d e d' q hf _
          have hg : (code handle t (.worker stats (.timersub req now))).Goes d q d' := ⟨e, hf⟩
          obtain ⟨rfl, -⟩ := goes_stmt.1 hg
          exact outside rfl rfl
      | handle req dispatch =>
          intro d e d' q hf _
          rcases goes_handle ⟨e, hf⟩ with ⟨-, -, -, rfl, -⟩ | ⟨-, rfl, -⟩
          · exact outside rfl ((ops_snoc _ _).trans (List.append_nil _))
          · exact outside rfl rfl
      | close req =>
          intro d e d' q hf _
          rcases goes_close handle ⟨e, hf⟩ with ⟨rfl, -⟩ | ⟨rfl, -⟩
          · exact outside rfl ((ops_snoc _ _).trans (List.append_nil _))
          · exact outside rfl rfl

theorem start_guarded : Guarded (machine n handle) holds (start n junk cap) :=
  ⟨fun t => by cases t <;> simp [start, startPc, Phase.holds, holds, MainPc.holds, WorkerPc.holds],
    fun t => trivial⟩

theorem start_refines (hcap : 1 ≤ cap) : Refines cap (start n junk cap).data :=
  ⟨.empty _ _, .nil, rfl, hcap, rfl, rfl, rfl, rfl⟩

theorem annotated (hcap : 1 ≤ cap) (h : Reachable (machine n handle) (start n junk cap) σ) :
    Annotated holds (Refines cap) (outline cap) σ := by
  refine Outline.reachable ⟨code_bracketed, code_verified⟩ h start_guarded
    (fun _ hr t => known_reachable hr t) ⟨fun _ => start_refines hcap, fun t p hp hh => ?_⟩
  obtain rfl : startPc t = p := by simpa [start] using hp
  cases t <;> simp [startPc, holds, MainPc.holds, WorkerPc.holds] at hh

theorem guarded (h : Reachable (machine n handle) (start n junk cap) σ) :
    Guarded (machine n handle) holds σ :=
  h.guarded code_bracketed start_guarded

theorem code_wait {t : Tid n} {p q : Pc} {c : QueueCond} (h : code handle t p = .wait c q) :
    (c = .notFull ∧ ∃ k, p = .main (.wait k) ∧ q = .main (.check k)) ∨
    (c = .notFull ∧ ∃ r, p = .main (.enqueue r .wait) ∧ q = .main (.enqueue r .check)) ∨
    c = .notEmpty ∧ ∃ stats, p = .worker stats (.dequeue .wait) ∧
      q = .worker stats (.dequeue .check) := by
  cases p with
  | main p =>
      cases p with
      | enqueue r s =>
          cases s <;> simp [code, mainLoop, enqueue, stmt] at h
          obtain ⟨rfl, rfl⟩ := h
          exact .inr (.inl ⟨rfl, r, rfl, rfl⟩)
      | wait k =>
          obtain ⟨rfl, rfl⟩ := by simpa [code, mainLoop] using h
          exact .inl ⟨rfl, k, rfl, rfl⟩
      | _ => simp [code, mainLoop, stmt] at h
  | worker stats p =>
      cases p with
      | dequeue s =>
          cases s <;> simp [code, workerThread, dequeue, stmt] at h
          obtain ⟨rfl, rfl⟩ := h
          exact .inr (.inr ⟨rfl, stats, rfl, rfl⟩)
      | finish s => cases s <;> simp [code, workerThread, finishHandling, stmt] at h
      | _ => simp [code, workerThread, stmt] at h

theorem waiter_place (h : Reachable (machine n handle) (start n junk cap) σ) {t : Tid n} {q : Pc}
    (hq : (∃ c, σ.phase t = .asleep c q) ∨ σ.phase t = .woken q) :
    (∃ k, q = .main (.check k)) ∨ (∃ r, q = .main (.enqueue r .check)) ∨
      ∃ stats, q = .worker stats (.dequeue .check) := by
  have hres := (guarded h).2 t
  have hi : ∃ c p, code handle t p = .wait c q := by
    rcases hq with ⟨c, hq⟩ | hq <;> rw [hq] at hres
    · exact ⟨c, hres⟩
    · exact hres
  obtain ⟨c, p, hi⟩ := hi
  rcases code_wait hi with ⟨-, k, -, rfl⟩ | ⟨-, r, -, rfl⟩ | ⟨-, stats, -, rfl⟩
  · exact .inl ⟨k, rfl⟩
  · exact .inr (.inl ⟨r, rfl⟩)
  · exact .inr (.inr ⟨stats, rfl⟩)

theorem serving_free (h : Reachable (machine n handle) (start n junk cap) σ)
    (free : σ.owner = none) (t : Tid n) : serving (σ.place t) = inService (σ.place t) := by
  cases hφ : σ.phase t with
  | run p =>
      have hp : holds p = false := by
        by_contra hh
        rw [Bool.not_eq_false] at hh
        have ho := ((guarded h).1 t).1 (by rw [hφ]; exact hh)
        simp [free] at ho
      rw [place_of_run hφ]
      cases p with
      | main p =>
          cases p with
          | enqueue r s => cases s <;> simp_all [holds, MainPc.holds, serving, inService]
          | _ => rfl
      | worker stats p =>
          cases p with
          | dequeue s => cases s <;> simp_all [holds, WorkerPc.holds, serving, inService]
          | finish s => cases s <;> simp_all [holds, WorkerPc.holds, serving, inService]
          | _ => rfl
  | asleep c q | woken q =>
      have hpl : σ.place t = q := by rw [State.place, hφ]; rfl
      rw [hpl]
      have hw : (∃ c, σ.phase t = .asleep c q) ∨ σ.phase t = .woken q := by simp [hφ]
      rcases waiter_place h hw with ⟨k, rfl⟩ | ⟨r, rfl⟩ | ⟨stats, rfl⟩ <;> rfl

theorem after_reachable (hcap : 1 ≤ cap) (h : Reachable (machine n handle) (start n junk cap) σ) :
    ∃ q : Fifo Request cap, Fifo.After (ops σ.data.trace) q := by
  have ha := annotated hcap h
  have of {d : Shared n} (hd : Refines cap d) : ∃ q : Fifo Request cap, Fifo.After (ops d.trace) q :=
    ⟨hd.choose, hd.choose_spec.1⟩
  cases ho : σ.owner with
  | none => exact of (ha.1 ho)
  | some t =>
      have ht := ((guarded h).1 t).2 ho
      cases hφ : σ.phase t with
      | asleep c q | woken q => rw [hφ] at ht; simp [Phase.holds] at ht
      | run p =>
          rw [hφ] at ht
          have hp := ha.2 t p hφ ht
          cases p with
          | main p =>
              cases p with
              | accept | lock | stamp => simp [Phase.holds, holds, MainPc.holds] at ht
              | check | unlock => exact of hp
              | wait => exact of hp.1
              | enqueue r s =>
                  cases s with
                  | lock => simp [Phase.holds, holds, MainPc.holds] at ht
                  | check | signal | unlock => exact of hp
                  | wait | connfd | arrival | rear => exact of hp.1
                  | size | dequeueingSize => exact ⟨hp.choose, hp.choose_spec.1⟩
          | worker stats p =>
              cases p with
              | timersub | handle | close => simp [Phase.holds, holds, WorkerPc.holds] at ht
              | dequeue s =>
                  cases s with
                  | lock => simp [Phase.holds, holds, WorkerPc.holds] at ht
                  | check | time | unlock => exact of hp
                  | wait | read => exact of hp.1
                  | front => exact ⟨hp.choose, hp.choose_spec.1⟩
                  | decrement => exact ⟨hp.choose, hp.choose_spec.choose_spec.1⟩
              | finish s =>
                  cases s with
                  | lock => simp [Phase.holds, holds, WorkerPc.holds] at ht
                  | _ => exact of hp

/-- The calls of `enqueue` and what the calls of `dequeue` returned, each in the
order of their critical sections. -/
def enqueued (tr : List (Event n)) : List Request :=
  tr.filterMap fun | .enqueued r => some r | _ => none

def dequeued (tr : List (Event n)) : List Request :=
  tr.filterMap fun | .dequeued _ r => some r | _ => none

theorem pushed_ops (tr : List (Event n)) : pushed (ops tr) = enqueued tr := by
  rw [pushed, ops, List.filterMap_filterMap, enqueued]
  congr 1
  funext e
  cases e <;> rfl

theorem popped_ops (tr : List (Event n)) : popped (ops tr) = dequeued tr := by
  rw [popped, ops, List.filterMap_filterMap, dequeued]
  congr 1
  funext e
  cases e <;> rfl

theorem enqueued_eq {tr : List (Event n)} {q : Fifo Request cap} (h : Fifo.After (ops tr) q) :
    enqueued tr = dequeued tr ++ q.pending := by
  rw [← pushed_ops, ← popped_ops, h.pushed_eq]

def dequeuedBy (t : Tid n) (tr : List (Event n)) : List Request :=
  tr.filterMap fun | .dequeued u r => if u = t then some r else none | _ => none

/-- The request that a worker has from its `dequeue` on, until it is closed. -/
def inHand : Pc → Option Request
  | .worker _ p => match p with
    | .dequeue (.time req) | .dequeue (.unlock req _) => some req
    | .timersub req _ | .handle req _ | .close req => some req
    | _ => none
  | _ => none

theorem dequeuedBy_snoc (t : Tid n) (tr : List (Event n)) (e : Event n) :
    dequeuedBy t (tr ++ [e]) = dequeuedBy t tr ++ dequeuedBy t [e] := List.filterMap_append

theorem edge_inHand {t : Tid n} {d d' : Shared n} {p q : Pc} (h : Edge handle t d p q d') :
    (∃ req, inHand q = some req ∧ d'.trace = d.trace ++ [.dequeued t req]) ∨
      (inHand q = none ∨ inHand q = inHand p) ∧
        ∀ u, dequeuedBy u d'.trace = dequeuedBy u d.trace := by
  have quiet {e : Event n} (he : ∀ u, dequeuedBy u [e] = []) (u : Tid n) :
      dequeuedBy u (d.trace ++ [e]) = dequeuedBy u d.trace := by
    rw [dequeuedBy_snoc, he, List.append_nil]
  cases h with
  | dequeued stats req => exact .inl ⟨req, rfl, rfl⟩
  | enqueued r => exact .inr ⟨.inl rfl, quiet fun _ => rfl⟩
  | returned stats stats' req dispatch => exact .inr ⟨.inr rfl, quiet fun _ => rfl⟩
  | closed stats req => exact .inr ⟨.inl rfl, quiet fun _ => rfl⟩
  | finished stats => exact .inr ⟨.inl rfl, quiet fun _ => rfl⟩
  | _ => exact .inr ⟨by first | exact .inl rfl | exact .inr rfl, fun u => rfl⟩

theorem inHand_last (h : Reachable (machine n handle) (start n junk cap) σ) (t : Tid n) :
    ∀ req, inHand (σ.place t) = some req → (dequeuedBy t σ.data.trace).getLast? = some req := by
  refine h.stable
    (A := fun t p d => ∀ req, inHand p = some req → (dequeuedBy t d.trace).getLast? = some req)
    ?_ ?_ ?_ t
  · intro t req ht
    cases t <;> cases ht
  · intro t p d q d' hi hg req hq
    rcases edge_inHand (goes_edge hg) with ⟨req', hq', htrace⟩ | ⟨hsame, htrace⟩
    · obtain rfl := Option.some.inj (hq'.symm.trans hq)
      have hlast : dequeuedBy t [Event.dequeued t req'] = [req'] :=
        List.filterMap_cons_some (if_pos rfl)
      rw [htrace, dequeuedBy_snoc, hlast]
      exact List.getLast?_concat
    · rw [htrace]
      rcases hsame with hnone | hsame
      · rw [hnone] at hq
        cases hq
      · exact hi req (hsame ▸ hq)
  · intro t p d q d' u r hu _ hi hg req hr
    rcases edge_inHand (goes_edge hg) with ⟨req', -, htrace⟩ | ⟨-, htrace⟩
    · have hnone : dequeuedBy u [Event.dequeued t req'] = [] :=
        List.filterMap_cons_none (if_neg hu.symm)
      rw [htrace, dequeuedBy_snoc, hnone, List.append_nil]
      exact hi req hr
    · rw [htrace]
      exact hi req hr

theorem contents_free (hcap : 1 ≤ cap) (h : Reachable (machine n handle) (start n junk cap) σ)
    (free : σ.owner = none) :
    enqueued σ.data.trace = dequeued σ.data.trace ++ contents σ.data.queue.buffer
      σ.data.queue.capacity σ.data.queue.front σ.data.queue.dequeueingSize.toNat := by
  obtain ⟨q, hq, hrep⟩ := (annotated hcap h).1 free
  have hw := hrep.waiting
  have hlen : σ.data.queue.dequeueingSize.toNat = q.pending.length := by omega
  rw [hlen, hrep.capacity, hrep.slots]
  exact enqueued_eq hq

/-- The ring buffer is a bounded queue, first in first out: its history is one of
the abstract queue, and while the mutex is free its fields say what that queue is. A
worker has the request that its last `dequeue` took out. -/
theorem queue_refines (hcap : 1 ≤ cap) (h : Reachable (machine n handle) (start n junk cap) σ) :
    (σ.owner = none →
      0 ≤ σ.data.queue.dequeueingSize ∧ σ.data.queue.dequeueingSize ≤ σ.data.queue.size ∧
      σ.data.queue.size ≤ cap ∧
      σ.data.queue.rear =
        (σ.data.queue.front + σ.data.queue.dequeueingSize.toNat) % σ.data.queue.capacity ∧
      σ.data.queue.size - σ.data.queue.dequeueingSize = countIn inService σ.place ∧
      enqueued σ.data.trace = dequeued σ.data.trace ++ contents σ.data.queue.buffer
        σ.data.queue.capacity σ.data.queue.front σ.data.queue.dequeueingSize.toNat) ∧
    dequeued σ.data.trace <+: enqueued σ.data.trace ∧
    (∀ t req, inHand (σ.place t) = some req →
      (dequeuedBy t σ.data.trace).getLast? = some req) ∧
    ∃ q : Fifo Request cap, Fifo.After (ops σ.data.trace) q ∧
      enqueued σ.data.trace = dequeued σ.data.trace ++ q.pending ∧
      q.pending.length + q.inService ≤ cap := by
  refine ⟨fun free => ?_, ?_⟩
  · obtain ⟨q, -, hrep⟩ := (annotated hcap h).1 free
    have hw := hrep.waiting
    have ht := hrep.total
    have hlen : σ.data.queue.dequeueingSize.toNat = q.pending.length := by omega
    refine ⟨by omega, by omega, hrep.size_le, ?_, ?_, contents_free hcap h free⟩
    · rw [hlen, hrep.capacity]
      exact hrep.rear
    · rw [serving_eq h, countIn_congr (serving_free h free)]
  · obtain ⟨q, hq⟩ := after_reachable hcap h
    have he := enqueued_eq hq
    exact ⟨he ▸ List.prefix_append _ _, inHand_last h, q, hq, he, q.room⟩

def serveOne : List (Tid 2 × Choice Script) :=
  let accept (c : Int) : List (Tid 2 × Choice Script) :=
    (.main, .accepted c) :: List.replicate 3 (.main, .ok) ++ (.main, .time ⟨c, 0⟩) ::
      List.replicate 9 (.main, .ok)
  accept 4 ++ List.replicate 5 (.worker 0, .ok) ++ (.worker 0, .time ⟨7, 0⟩) ::
    (.worker 0, .ok) :: accept 5

def returns : Handler Unit := fun _ _ _ stats _ => some (.returned stats)

theorem serveOne_runs : ((machine 2 returns).replay serveOne
    (start 2 (fun _ => ⟨0, 0, 0⟩) 2)).isSome = true := by
  decide +kernel

theorem queue_refines_serveOne : ∃ σ, Reachable (machine 2 returns) (start 2 (fun _ => ⟨0, 0, 0⟩) 2) σ ∧
    dequeued σ.data.trace = [⟨4, 4, 0⟩] ∧ [⟨4, 4, 0⟩] <+: enqueued σ.data.trace := by
  have h := replay_reachable (Option.some_get serveOne_runs).symm
  have hd : dequeued (((machine 2 returns).replay serveOne
    (start 2 (fun _ => ⟨0, 0, 0⟩) 2)).get serveOne_runs).data.trace = [⟨4, 4, 0⟩] := by decide +kernel
  exact ⟨_, h, hd, hd ▸ (queue_refines (by decide) h).2.1⟩

end WebServer.QueueRefinement
