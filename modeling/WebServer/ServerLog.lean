import Mathlib.Algebra.Group.Int.Defs
import Mathlib.Algebra.Group.Nat.Defs
import WebServer.MonitorRules

namespace WebServer.ServerLog

open Monitor

abbrev Byte := UInt8

/-- 64-bit `size_t` and 32-bit `int`. -/
def sizeT (n : Nat) : Nat := n % 2 ^ 64

def int32 (n : Int) : Int := Int.bmod n (2 ^ 32)

abbrev CInt := {n : Int // -2 ^ 31 ≤ n ∧ n < 2 ^ 31}

theorem one_fits : -2 ^ 31 ≤ (1 : Int) ∧ (1 : Int) < 2 ^ 31 := by decide

/-- The bytes one call of `add_to_log` appends: as many as an `int` can say. -/
structure Entry where
  bytes : List Byte
  fits : bytes.length < 2 ^ 31

def Entry.take (data : List Byte) (n : CInt) : Entry :=
  ⟨data.take n.1.toNat, by
    have h := List.length_take_le n.1.toNat data
    have hn := n.2
    omega⟩

inductive LogCond
  | readersCond
  | writersCond
  deriving DecidableEq

structure Log where
  buffer : Nat
  size : Nat
  capacity : Nat
  readers : Int
  writers : Int
  waitingWriters : Int

/-- The calls and returns of the two functions and the ends of the write
sections, in the order in which they happen. Each call has its own number. -/
inductive Event
  | callGet (c : Nat)
  | retGet (c : Nat) (dst : List Byte) (size : Int)
  | callAdd (c : Nat) (data : Option (List Byte)) (dataLen : CInt)
  | wrote (c : Nat) (entry : List Byte)
  | retAdd (c : Nat)
  deriving DecidableEq

/-- The log and the heap its buffer lives on. Addresses from `brk` on are unused. -/
structure Mem where
  log : Log
  heap : Nat → Option (List Byte)
  brk : Nat

structure Shared where
  mem : Mem
  calls : Nat
  trace : List Event
  running : Bool

@[simp] abbrev Shared.log (d : Shared) : Log := d.mem.log

/-- What the environment decides: which call an idle thread makes, the bytes found in
fresh or foreign memory, and whether `malloc` fails. -/
inductive Choice
  | getLog
  | addToLog (data : Option (List Byte)) (dataLen : CInt)
  | junk (byte : Nat → Byte)
  | failed

def Mem.alloc (m : Mem) (n : Nat) (byte : Nat → Byte) : Mem :=
  { m with heap := Function.update m.heap m.brk (some ((List.range n).map byte)), brk := m.brk + 1 }

def Mem.free (m : Mem) (a : Nat) : Mem := { m with heap := Function.update m.heap a none }

def Mem.load (m : Mem) (a i : Nat) (other : Byte) : Byte :=
  ((m.heap a).bind (·[i]?)).getD other

def Mem.store (m : Mem) (a i : Nat) (b : Byte) : Mem :=
  { m with heap := Function.update m.heap a ((m.heap a).map (·.set i b)) }

@[simp] theorem alloc_log (m : Mem) (n : Nat) (byte : Nat → Byte) :
    (m.alloc n byte).log = m.log := rfl

@[simp] theorem free_log (m : Mem) (a : Nat) : (m.free a).log = m.log := rfl

@[simp] theorem store_log (m : Mem) (a i : Nat) (b : Byte) : (m.store a i b).log = m.log := rfl

inductive GetPc
  | lock | check | wait | incReaders | unlock
  | malloc
  | memcpy (cap : Nat)
  | copying (cap src n i : Nat) (dst : List Byte)
  | result (dst : List Byte)
  | endLock (dst : List Byte) (size : Int)
  | decReaders (dst : List Byte) (size : Int)
  | testReaders (dst : List Byte) (size : Int)
  | signal (dst : List Byte) (size : Int)
  | endUnlock (dst : List Byte) (size : Int)
  | ret (dst : List Byte) (size : Int)

inductive AddPc
  | lock | incWaiting | check | wait | decWaiting | setWriter
  | grow
  | growLoop (newCapacity : Nat)
  | malloc (newCapacity : Nat)
  | copyOld (newCapacity newBuf src n i : Nat)
  | free (newCapacity newBuf : Nat)
  | setBuffer (newCapacity newBuf : Nat)
  | setCapacity (newCapacity : Nat)
  | memcpy
  | copying (dst off i : Nat)
  | addSize | terminate
  | clear | testWaiting | signal | broadcast | unlock

inductive Pc
  | idle
  | get (c : Nat) (s : GetPc)
  | addTest (c : Nat) (data : Option (List Byte)) (dataLen : CInt)
  | add (c : Nat) (entry : Entry) (s : AddPc)
  | addRet (c : Nat)

abbrev LogInstr := Instr LogCond Pc Shared Choice

/-- A statement of the code, given the bytes it may find in memory that is not
its own. -/
def stmt (f : (Nat → Byte) → Shared → Shared × Pc) : LogInstr :=
  .act fun d e => match e with
    | .junk byte => some (f byte d)
    | _ => none

/-- `Malloc` at `p`, which ends the process where `malloc` fails, as it does for every size
above `PTRDIFF_MAX`. -/
def Malloc (p : Pc) (size : Shared → Nat) (f : (Nat → Byte) → Shared → Shared × Pc) : LogInstr :=
  .act fun d e => match e with
    | .junk byte => if size d < 2 ^ 63 then some (f byte d) else none
    | .failed => some ({ d with running := false }, p)
    | _ => none

def getLog (c : Nat) : GetPc → LogInstr
  -- log_start_read
  | .lock => .lock (.get c .check)
  | .check => stmt fun _ d =>
      (d, .get c (if d.log.writers > 0 ∨ d.log.waitingWriters > 0 then .wait else .incReaders))
  | .wait => .wait .readersCond (.get c .check)
  | .incReaders => stmt fun _ d =>
      ({ d with mem.log.readers := d.log.readers + 1 }, .get c .unlock)
  | .unlock => .unlock (.get c .malloc)
  -- the copy, with no lock held
  | .malloc => Malloc (.get c .malloc) (fun d => sizeT (d.log.size + 1)) fun _ d =>
      (d, .get c (.memcpy (sizeT (d.log.size + 1))))
  | .memcpy cap => stmt fun _ d =>
      (d, .get c (.copying cap d.log.buffer (sizeT (d.log.size + 1)) 0 []))
  | .copying cap src n i dst => stmt fun byte d =>
      (d, .get c
        (if i < n then
          .copying cap src n (i + 1) (if i < cap then dst ++ [d.mem.load src i (byte i)] else dst)
        else .result dst))
  | .result dst => stmt fun _ d => (d, .get c (.endLock dst (int32 d.log.size)))
  -- log_end_read
  | .endLock dst n => .lock (.get c (.decReaders dst n))
  | .decReaders dst n => stmt fun _ d =>
      ({ d with mem.log.readers := d.log.readers - 1 }, .get c (.testReaders dst n))
  | .testReaders dst n => stmt fun _ d =>
      (d, .get c (if d.log.readers = 0 then .signal dst n else .endUnlock dst n))
  | .signal dst n => .signal .writersCond (.get c (.endUnlock dst n))
  | .endUnlock dst n => .unlock (.get c (.ret dst n))
  | .ret dst n => stmt fun _ d => ({ d with trace := d.trace ++ [.retGet c dst n] }, .idle)

/-- `add_to_log` past its first test, for an entry of `data_len` bytes. -/
def addToLog (c : Nat) (entry : Entry) : AddPc → LogInstr
  -- log_start_write
  | .lock => .lock (.add c entry .incWaiting)
  | .incWaiting => stmt fun _ d =>
      ({ d with mem.log.waitingWriters := d.log.waitingWriters + 1 }, .add c entry .check)
  | .check => stmt fun _ d =>
      (d, .add c entry (if d.log.readers > 0 ∨ d.log.writers > 0 then .wait else .decWaiting))
  | .wait => .wait .writersCond (.add c entry .check)
  | .decWaiting => stmt fun _ d =>
      ({ d with mem.log.waitingWriters := d.log.waitingWriters - 1 }, .add c entry .setWriter)
  | .setWriter => stmt fun _ d => ({ d with mem.log.writers := 1 }, .add c entry .grow)
  -- the write section, with the mutex held
  | .grow => stmt fun _ d =>
      (d, .add c entry
        (if sizeT (d.log.size + entry.bytes.length + 1) ≥ d.log.capacity
          then .growLoop (sizeT (d.log.capacity * 2)) else .memcpy))
  | .growLoop m => stmt fun _ d =>
      (d, .add c entry
        (if m < sizeT (d.log.size + entry.bytes.length + 1) then .growLoop (sizeT (m * 2))
          else .malloc m))
  | .malloc m => Malloc (.add c entry (.malloc m)) (fun _ => m) fun byte d =>
      ({ d with mem := d.mem.alloc m byte },
        .add c entry (.copyOld m d.mem.brk d.log.buffer d.log.size 0))
  | .copyOld m new src n i => stmt fun byte d =>
      if i < n then
        ({ d with mem := d.mem.store new i (d.mem.load src i (byte i)) },
          .add c entry (.copyOld m new src n (i + 1)))
      else (d, .add c entry (.free m new))
  | .free m new => stmt fun _ d =>
      ({ d with mem := d.mem.free d.log.buffer }, .add c entry (.setBuffer m new))
  | .setBuffer m new => stmt fun _ d =>
      ({ d with mem.log.buffer := new }, .add c entry (.setCapacity m))
  | .setCapacity m => stmt fun _ d => ({ d with mem.log.capacity := m }, .add c entry .memcpy)
  | .memcpy => stmt fun _ d => (d, .add c entry (.copying d.log.buffer d.log.size 0))
  | .copying dst off i => stmt fun _ d =>
      match entry.bytes[i]? with
      | some b =>
          ({ d with mem := d.mem.store dst (off + i) b }, .add c entry (.copying dst off (i + 1)))
      | none => (d, .add c entry .addSize)
  | .addSize => stmt fun _ d =>
      ({ d with mem.log.size := sizeT (d.log.size + entry.bytes.length) }, .add c entry .terminate)
  | .terminate => stmt fun _ d =>
      ({ d with mem := d.mem.store d.log.buffer d.log.size 0 }, .add c entry .clear)
  -- log_end_write
  | .clear => stmt fun _ d =>
      ({ d with mem.log.writers := 0, trace := d.trace ++ [.wrote c entry.bytes] },
        .add c entry .testWaiting)
  | .testWaiting => stmt fun _ d =>
      (d, .add c entry (if d.log.waitingWriters > 0 then .signal else .broadcast))
  | .signal => .signal .writersCond (.add c entry .unlock)
  | .broadcast => .broadcast .readersCond (.add c entry .unlock)
  | .unlock => .unlock (.addRet c)

def Readable (data : Option (List Byte)) (dataLen : CInt) : Prop :=
  ∀ bs ∈ data, dataLen.1 ≤ bs.length

instance (data : Option (List Byte)) (dataLen : CInt) : Decidable (Readable data dataLen) := by
  unfold Readable; infer_instance

def code : Pc → LogInstr
  | .idle => .act fun d e => match e with
      | .getLog => some
          ({ d with calls := d.calls + 1, trace := d.trace ++ [.callGet d.calls] },
            .get d.calls .lock)
      | .addToLog data n =>
          if Readable data n then some
            ({ d with calls := d.calls + 1, trace := d.trace ++ [.callAdd d.calls data n] },
              .addTest d.calls data n)
          else none
      | .junk _ | .failed => none
  | .get c s => getLog c s
  | .addTest c data n => stmt fun _ d =>
      match data with
      | none => (d, .addRet c)
      | some bs => (d, if n.1 ≤ 0 then .addRet c else .add c (.take bs n) .lock)
  | .add c entry s => addToLog c entry s
  | .addRet c => stmt fun _ d => ({ d with trace := d.trace ++ [.retAdd c] }, .idle)

theorem goes_stmt {f : (Nat → Byte) → Shared → Shared × Pc} {d d' : Shared} {q : Pc} :
    (stmt f).Goes d q d' ↔ ∃ byte, d' = (f byte d).1 ∧ q = (f byte d).2 := by
  constructor
  · rintro ⟨e, h⟩
    cases e with
    | junk byte =>
        have h : f byte d = (d', q) := by simpa using h
        exact ⟨byte, by rw [h], by rw [h]⟩
    | getLog | addToLog | failed => simp at h
  · rintro ⟨byte, rfl, rfl⟩
    exact ⟨.junk byte, rfl⟩

theorem goes_malloc {size : Shared → Nat} {f : (Nat → Byte) → Shared → Shared × Pc} {d d' : Shared}
    {p q : Pc} : (Malloc p size f).Goes d q d' ↔
      (size d < 2 ^ 63 ∧ ∃ byte, d' = (f byte d).1 ∧ q = (f byte d).2) ∨
        d' = { d with running := false } ∧ q = p := by
  constructor
  · rintro ⟨e, h⟩
    cases e with
    | junk byte =>
        obtain ⟨hsize, h⟩ := Option.ite_none_right_eq_some.1 h
        have h : f byte d = (d', q) := Option.some.inj h
        exact .inl ⟨hsize, byte, by rw [h], by rw [h]⟩
    | failed =>
        obtain ⟨rfl, rfl⟩ := Prod.mk.inj (Option.some.inj h)
        exact .inr ⟨rfl, rfl⟩
    | getLog | addToLog => cases h
  · rintro (⟨hsize, byte, rfl, rfl⟩ | ⟨rfl, rfl⟩)
    · exact ⟨.junk byte, if_pos hsize⟩
    · exact ⟨.failed, rfl⟩

theorem bracketed_stmt {f : (Nat → Byte) → Shared → Shared × Pc} {holds : Pc → Bool}
    {p : Pc} : (stmt f).Bracketed holds p ↔ ∀ byte d, holds (f byte d).2 = holds p := by
  constructor
  · intro h byte d
    exact h d (.junk byte) _ _ rfl
  · intro h d e d' q hf
    obtain ⟨byte, -, rfl⟩ := goes_stmt.1 ⟨e, hf⟩
    exact h byte d

theorem bracketed_malloc {size : Shared → Nat} {f : (Nat → Byte) → Shared → Shared × Pc}
    {holds : Pc → Bool} {p : Pc} (h : ∀ byte d, holds (f byte d).2 = holds p) :
    (Malloc p size f).Bracketed holds p := by
  intro d e d' q hf
  rcases goes_malloc.1 ⟨e, hf⟩ with ⟨-, byte, -, rfl⟩ | ⟨-, rfl⟩
  · exact h byte d
  · rfl

theorem goes_idle {d d' : Shared} {q : Pc} (h : (code .idle).Goes d q d') :
    (d' = { d with calls := d.calls + 1, trace := d.trace ++ [.callGet d.calls] } ∧
      q = .get d.calls .lock) ∨
    ∃ data n, Readable data n ∧
      d' = { d with calls := d.calls + 1, trace := d.trace ++ [.callAdd d.calls data n] } ∧
      q = .addTest d.calls data n := by
  obtain ⟨e, h⟩ := h
  cases e with
  | getLog =>
      obtain ⟨rfl, rfl⟩ := by simpa using h
      exact .inl ⟨rfl, rfl⟩
  | addToLog data n =>
      obtain ⟨hr, h⟩ := Option.ite_none_right_eq_some.1 h
      obtain ⟨rfl, rfl⟩ := by simpa using h
      exact .inr ⟨data, n, hr, rfl, rfl⟩
  | junk | failed => cases h

inductive Edge (d : Shared) : Pc → Pc → Shared → Prop
  | callGet : Edge d .idle (.get d.calls .lock)
      { d with calls := d.calls + 1, trace := d.trace ++ [.callGet d.calls] }
  | callAdd (data : Option (List Byte)) (n : CInt) (readable : Readable data n) :
      Edge d .idle (.addTest d.calls data n)
        { d with calls := d.calls + 1, trace := d.trace ++ [.callAdd d.calls data n] }
  | ignore (c : Nat) (data : Option (List Byte)) (n : CInt) (none : data = none ∨ n.1 ≤ 0) :
      Edge d (.addTest c data n) (.addRet c) d
  | accept (c : Nat) (bs : List Byte) (n : CInt) (pos : 0 < n.1) :
      Edge d (.addTest c (some bs) n) (.add c (.take bs n) .lock) d
  | retAdd (c : Nat) : Edge d (.addRet c) .idle { d with trace := d.trace ++ [.retAdd c] }
  | readLocked (c : Nat) : Edge d (.get c .lock) (.get c .check) d
  | readHeld (c : Nat) (held : 0 < d.log.writers ∨ 0 < d.log.waitingWriters) :
      Edge d (.get c .check) (.get c .wait) d
  | readFree (c : Nat) (none : d.log.writers ≤ 0) (first : d.log.waitingWriters ≤ 0) :
      Edge d (.get c .check) (.get c .incReaders) d
  | readWoken (c : Nat) : Edge d (.get c .wait) (.get c .check) d
  | readCounted (c : Nat) : Edge d (.get c .incReaders) (.get c .unlock)
      { d with mem.log.readers := d.log.readers + 1 }
  | readUnlocked (c : Nat) : Edge d (.get c .unlock) (.get c .malloc) d
  | allocated (c : Nat) (size : sizeT (d.log.size + 1) < 2 ^ 63) :
      Edge d (.get c .malloc) (.get c (.memcpy (sizeT (d.log.size + 1)))) d
  | readFailed (c : Nat) : Edge d (.get c .malloc) (.get c .malloc) { d with running := false }
  | copyStarts (c cap : Nat) : Edge d (.get c (.memcpy cap))
      (.get c (.copying cap d.log.buffer (sizeT (d.log.size + 1)) 0 [])) d
  | byteRead (c cap src n i : Nat) (dst : List Byte) (other : Byte) (more : i < n) :
      Edge d (.get c (.copying cap src n i dst)) (.get c (.copying cap src n (i + 1)
        (if i < cap then dst ++ [d.mem.load src i other] else dst))) d
  | copyDone (c cap src n i : Nat) (dst : List Byte) (done : n ≤ i) :
      Edge d (.get c (.copying cap src n i dst)) (.get c (.result dst)) d
  | lengthRead (c : Nat) (dst : List Byte) :
      Edge d (.get c (.result dst)) (.get c (.endLock dst (int32 d.log.size))) d
  | endReadLocked (c : Nat) (dst : List Byte) (n : Int) :
      Edge d (.get c (.endLock dst n)) (.get c (.decReaders dst n)) d
  | readUncounted (c : Nat) (dst : List Byte) (n : Int) :
      Edge d (.get c (.decReaders dst n)) (.get c (.testReaders dst n))
        { d with mem.log.readers := d.log.readers - 1 }
  | lastReader (c : Nat) (dst : List Byte) (n : Int) (last : d.log.readers = 0) :
      Edge d (.get c (.testReaders dst n)) (.get c (.signal dst n)) d
  | otherReaders (c : Nat) (dst : List Byte) (n : Int) (others : d.log.readers ≠ 0) :
      Edge d (.get c (.testReaders dst n)) (.get c (.endUnlock dst n)) d
  | readSignalled (c : Nat) (dst : List Byte) (n : Int) :
      Edge d (.get c (.signal dst n)) (.get c (.endUnlock dst n)) d
  | endReadUnlocked (c : Nat) (dst : List Byte) (n : Int) :
      Edge d (.get c (.endUnlock dst n)) (.get c (.ret dst n)) d
  | retGet (c : Nat) (dst : List Byte) (n : Int) :
      Edge d (.get c (.ret dst n)) .idle { d with trace := d.trace ++ [.retGet c dst n] }
  | writeLocked (c : Nat) (e : Entry) : Edge d (.add c e .lock) (.add c e .incWaiting) d
  | writeCounted (c : Nat) (e : Entry) : Edge d (.add c e .incWaiting) (.add c e .check)
      { d with mem.log.waitingWriters := d.log.waitingWriters + 1 }
  | writeHeld (c : Nat) (e : Entry) (held : 0 < d.log.readers ∨ 0 < d.log.writers) :
      Edge d (.add c e .check) (.add c e .wait) d
  | writeFree (c : Nat) (e : Entry) (readers : d.log.readers ≤ 0) (writers : d.log.writers ≤ 0) :
      Edge d (.add c e .check) (.add c e .decWaiting) d
  | writeWoken (c : Nat) (e : Entry) : Edge d (.add c e .wait) (.add c e .check) d
  | writeUncounted (c : Nat) (e : Entry) : Edge d (.add c e .decWaiting) (.add c e .setWriter)
      { d with mem.log.waitingWriters := d.log.waitingWriters - 1 }
  | writerSet (c : Nat) (e : Entry) : Edge d (.add c e .setWriter) (.add c e .grow)
      { d with mem.log.writers := 1 }
  | growing (c : Nat) (e : Entry) :
      Edge d (.add c e .grow) (.add c e (.growLoop (sizeT (d.log.capacity * 2)))) d
  | fitting (c : Nat) (e : Entry) : Edge d (.add c e .grow) (.add c e .memcpy) d
  | doubled (c : Nat) (e : Entry) (m : Nat) :
      Edge d (.add c e (.growLoop m)) (.add c e (.growLoop (sizeT (m * 2)))) d
  | enough (c : Nat) (e : Entry) (m : Nat) :
      Edge d (.add c e (.growLoop m)) (.add c e (.malloc m)) d
  | mallocked (c : Nat) (e : Entry) (m : Nat) (byte : Nat → Byte) (size : m < 2 ^ 63) :
      Edge d (.add c e (.malloc m)) (.add c e (.copyOld m d.mem.brk d.log.buffer d.log.size 0))
        { d with mem := d.mem.alloc m byte }
  | writeFailed (c : Nat) (e : Entry) (m : Nat) :
      Edge d (.add c e (.malloc m)) (.add c e (.malloc m)) { d with running := false }
  | oldCopied (c : Nat) (e : Entry) (m new src n i : Nat) (other : Byte) :
      Edge d (.add c e (.copyOld m new src n i)) (.add c e (.copyOld m new src n (i + 1)))
        { d with mem := d.mem.store new i (d.mem.load src i other) }
  | oldDone (c : Nat) (e : Entry) (m new src n i : Nat) :
      Edge d (.add c e (.copyOld m new src n i)) (.add c e (.free m new)) d
  | freed (c : Nat) (e : Entry) (m new : Nat) :
      Edge d (.add c e (.free m new)) (.add c e (.setBuffer m new))
        { d with mem := d.mem.free d.log.buffer }
  | bufferSet (c : Nat) (e : Entry) (m new : Nat) :
      Edge d (.add c e (.setBuffer m new)) (.add c e (.setCapacity m))
        { d with mem.log.buffer := new }
  | capacitySet (c : Nat) (e : Entry) (m : Nat) :
      Edge d (.add c e (.setCapacity m)) (.add c e .memcpy) { d with mem.log.capacity := m }
  | entryStarts (c : Nat) (e : Entry) :
      Edge d (.add c e .memcpy) (.add c e (.copying d.log.buffer d.log.size 0)) d
  | byteWritten (c : Nat) (e : Entry) (dst off i : Nat) (b : Byte) :
      Edge d (.add c e (.copying dst off i)) (.add c e (.copying dst off (i + 1)))
        { d with mem := d.mem.store dst (off + i) b }
  | entryDone (c : Nat) (e : Entry) (dst off i : Nat) :
      Edge d (.add c e (.copying dst off i)) (.add c e .addSize) d
  | sizeAdded (c : Nat) (e : Entry) (size : Nat) :
      Edge d (.add c e .addSize) (.add c e .terminate) { d with mem.log.size := size }
  | terminated (c : Nat) (e : Entry) : Edge d (.add c e .terminate) (.add c e .clear)
      { d with mem := d.mem.store d.log.buffer d.log.size 0 }
  | wrote (c : Nat) (e : Entry) : Edge d (.add c e .clear) (.add c e .testWaiting)
      { d with mem.log.writers := 0, trace := d.trace ++ [.wrote c e.bytes] }
  | writersWait (c : Nat) (e : Entry) (some : 0 < d.log.waitingWriters) :
      Edge d (.add c e .testWaiting) (.add c e .signal) d
  | noneWaits (c : Nat) (e : Entry) (none : d.log.waitingWriters ≤ 0) :
      Edge d (.add c e .testWaiting) (.add c e .broadcast) d
  | writeSignalled (c : Nat) (e : Entry) : Edge d (.add c e .signal) (.add c e .unlock) d
  | writeBroadcast (c : Nat) (e : Entry) : Edge d (.add c e .broadcast) (.add c e .unlock) d
  | writeUnlocked (c : Nat) (e : Entry) : Edge d (.add c e .unlock) (.addRet c) d

theorem get_edge {c : Nat} {s : GetPc} {d d' : Shared} {q : Pc} (h : (getLog c s).Goes d q d') :
    Edge d (.get c s) q d' := by
  cases s with
  | lock | wait | unlock | endLock | signal | endUnlock => obtain ⟨rfl, rfl⟩ := h; constructor
  | check =>
      obtain ⟨byte, rfl, rfl⟩ := goes_stmt.1 h
      dsimp only
      split
      · next held => exact .readHeld c held
      · next free => exact .readFree c (by omega) (by omega)
  | copying cap src n i dst =>
      obtain ⟨byte, rfl, rfl⟩ := goes_stmt.1 h
      dsimp only
      split
      · next more => exact .byteRead c cap src n i dst (byte i) more
      · next done => exact .copyDone c cap src n i dst (by omega)
  | malloc =>
      rcases goes_malloc.1 h with ⟨size, byte, rfl, rfl⟩ | ⟨rfl, rfl⟩
      · exact .allocated c size
      · exact .readFailed c
  | testReaders dst n =>
      obtain ⟨byte, rfl, rfl⟩ := goes_stmt.1 h
      dsimp only
      split
      · next last => exact .lastReader c dst n last
      · next others => exact .otherReaders c dst n others
  | _ => obtain ⟨byte, rfl, rfl⟩ := goes_stmt.1 h; constructor

theorem add_edge {c : Nat} {e : Entry} {s : AddPc} {d d' : Shared} {q : Pc}
    (h : (addToLog c e s).Goes d q d') : Edge d (.add c e s) q d' := by
  cases s with
  | lock | wait | signal | broadcast | unlock => obtain ⟨rfl, rfl⟩ := h; constructor
  | check =>
      obtain ⟨byte, rfl, rfl⟩ := goes_stmt.1 h
      dsimp only
      split
      · next held => exact .writeHeld c e held
      · next free => exact .writeFree c e (by omega) (by omega)
  | grow | growLoop =>
      obtain ⟨byte, rfl, rfl⟩ := goes_stmt.1 h
      dsimp only
      split <;> constructor
  | malloc m =>
      rcases goes_malloc.1 h with ⟨size, byte, rfl, rfl⟩ | ⟨rfl, rfl⟩
      · exact .mallocked c e m byte size
      · exact .writeFailed c e m
  | copyOld | copying =>
      obtain ⟨byte, rfl, rfl⟩ := goes_stmt.1 h
      split <;> constructor
  | testWaiting =>
      obtain ⟨byte, rfl, rfl⟩ := goes_stmt.1 h
      dsimp only
      split
      · next some => exact .writersWait c e some
      · next none => exact .noneWaits c e (by omega)
  | _ => obtain ⟨byte, rfl, rfl⟩ := goes_stmt.1 h; constructor

theorem goes_edge {p q : Pc} {d d' : Shared} (h : (code p).Goes d q d') : Edge d p q d' := by
  cases p with
  | idle =>
      rcases goes_idle h with ⟨rfl, rfl⟩ | ⟨data, n, readable, rfl, rfl⟩
      · exact .callGet
      · exact .callAdd data n readable
  | addTest c data n =>
      obtain ⟨byte, rfl, rfl⟩ := goes_stmt.1 h
      cases data with
      | none => exact .ignore c none n (.inl rfl)
      | some bs =>
          dsimp only
          split
          · next hn => exact .ignore c (some bs) n (.inr hn)
          · next hn => exact .accept c bs n (by omega)
  | addRet c =>
      obtain ⟨byte, rfl, rfl⟩ := goes_stmt.1 h
      exact .retAdd c
  | get c s => exact get_edge h
  | add c e s => exact add_edge h

def known (_ : Pc) (_ : Shared) : Prop := True

theorem verified_stmt {f : (Nat → Byte) → Shared → Shared × Pc} {holds : Pc → Bool}
    {B A : Pc → Shared → Prop} {J : Shared → Prop} {p : Pc} (hp : holds p = true)
    (h : ∀ byte d, B p d → A p d → A (f byte d).2 (f byte d).1) :
    (stmt f).Verified holds B J A p := by
  intro d e d' q hf hB
  obtain ⟨byte, rfl, rfl⟩ := goes_stmt.1 ⟨e, hf⟩
  rw [if_pos hp]
  exact h byte d hB

theorem verified_held {f : (Nat → Byte) → Shared → Shared × Pc} {holds : Pc → Bool}
    {B A : Pc → Shared → Prop} {J : Shared → Prop} {p : Pc} (hp : holds p = true)
    (h : ∀ byte d, A p d → A (f byte d).2 (f byte d).1) : (stmt f).Verified holds B J A p :=
  verified_stmt hp fun byte d _ => h byte d

theorem verified_free {f : (Nat → Byte) → Shared → Shared × Pc} {holds : Pc → Bool}
    {B A : Pc → Shared → Prop} {J : Shared → Prop} {p : Pc} (hp : holds p = false)
    (h : ∀ byte d, (J d → J (f byte d).1) ∧ ∀ r, A r d → A r (f byte d).1) :
    (stmt f).Verified holds B J A p := by
  intro d e d' q hf _
  obtain ⟨byte, rfl, rfl⟩ := goes_stmt.1 ⟨e, hf⟩
  rw [if_neg (by simp [hp])]
  exact h byte d

theorem malloc_held {size : Shared → Nat} {f : (Nat → Byte) → Shared → Shared × Pc}
    {holds : Pc → Bool} {B A : Pc → Shared → Prop} {J : Shared → Prop} {p : Pc}
    (hp : holds p = true)
    (h : ∀ byte d, size d < 2 ^ 63 → B p d → A p d → A (f byte d).2 (f byte d).1)
    (ends : ∀ d, A p d → A p { d with running := false }) :
    (Malloc p size f).Verified holds B J A p := by
  intro d e d' q hf hB
  rw [if_pos hp]
  rcases goes_malloc.1 ⟨e, hf⟩ with ⟨hsize, byte, rfl, rfl⟩ | ⟨rfl, rfl⟩
  · exact h byte d hsize hB
  · exact ends d

theorem malloc_free {size : Shared → Nat} {f : (Nat → Byte) → Shared → Shared × Pc}
    {holds : Pc → Bool} {B A : Pc → Shared → Prop} {J : Shared → Prop} {p : Pc}
    (hp : holds p = false)
    (h : ∀ byte d, (J d → J (f byte d).1) ∧ ∀ r, A r d → A r (f byte d).1)
    (ends : ∀ d, (J d → J { d with running := false }) ∧ ∀ r, A r d → A r { d with running := false }) :
    (Malloc p size f).Verified holds B J A p := by
  intro d e d' q hf _
  rw [if_neg (by simp [hp])]
  rcases goes_malloc.1 ⟨e, hf⟩ with ⟨-, byte, rfl, rfl⟩ | ⟨rfl, rfl⟩
  · exact h byte d
  · exact ends d

abbrev LogState (Tid : Type) := State Tid LogCond Pc Shared

def machine (Tid : Type) : Machine Tid LogCond Pc Shared Choice :=
  ⟨fun _ => code, Shared.running⟩

/-- `create_log`: `Malloc` leaves 4096 unknown bytes, of which the first is set
to the terminator. -/
def createLog (byte : Nat → Byte) : Shared :=
  let m : Mem := ⟨⟨0, 0, 4096, 0, 0, 0⟩, fun _ => none, 0⟩
  ⟨(m.alloc 4096 byte).store 0 0 0, 0, [], true⟩

def start (Tid : Type) (byte : Nat → Byte) : LogState Tid :=
  ⟨none, fun _ => .run .idle, createLog byte⟩

end WebServer.ServerLog
