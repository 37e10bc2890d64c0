import WebServer.ServerLog
import WebServer.Counting

namespace WebServer.LogLock

open Monitor ServerLog

variable {Tid : Type} [DecidableEq Tid]

def GetPc.holds : GetPc → Bool
  | .check | .wait | .incReaders | .unlock => true
  | .decReaders _ _ | .testReaders _ _ | .signal _ _ | .endUnlock _ _ => true
  | _ => false

def AddPc.holds : AddPc → Bool
  | .lock => false
  | _ => true

def holds : Pc → Bool
  | .get _ s => GetPc.holds s
  | .add _ _ s => AddPc.holds s
  | _ => false

def counted : Pc → Bool
  | .get _ s => match s with
    | .unlock | .malloc | .memcpy _ | .copying .. | .result _ | .endLock _ _ | .decReaders _ _ => true
    | _ => false
  | _ => false

def waiting : Pc → Bool
  | .add _ _ s => match s with
    | .check | .wait | .decWaiting => true
    | _ => false
  | _ => false

/-- Between the return of `log_start_read` and the call of `log_end_read`. -/
def inRead : Pc → Bool
  | .get _ s => match s with
    | .malloc | .memcpy _ | .copying .. | .result _ => true
    | _ => false
  | _ => false

/-- Between the return of `log_start_write` and the call of `log_end_write`. -/
def inWrite : Pc → Bool
  | .add _ _ s => match s with
    | .lock | .incWaiting | .check | .wait | .decWaiting | .setWriter => false
    | .clear | .testWaiting | .signal | .broadcast | .unlock => false
    | _ => true
  | _ => false

theorem holds_of_inWrite {p : Pc} (h : inWrite p = true) : holds p = true := by
  cases p with
  | add c e s => cases s <;> simp_all [inWrite, holds, AddPc.holds]
  | _ => simp [inWrite] at h

def inCall : Pc → Bool
  | .idle => false
  | _ => true

theorem getLog_bracketed (c : Nat) (s : GetPc) : (getLog c s).Bracketed holds (.get c s) := by
  cases s with
  | lock | wait | unlock | endLock | signal | endUnlock =>
      simp [getLog, Instr.Bracketed, holds, GetPc.holds]
  | incReaders | memcpy | result | decReaders | ret =>
      simp [getLog, bracketed_stmt, holds, GetPc.holds]
  | malloc => exact bracketed_malloc fun _ _ => rfl
  | check | copying | testReaders =>
      simp only [getLog, bracketed_stmt]
      intro byte d
      split <;> rfl

theorem addToLog_bracketed (c : Nat) (entry : Entry) (s : AddPc) :
    (addToLog c entry s).Bracketed holds (.add c entry s) := by
  cases s with
  | lock | wait | signal | broadcast | unlock =>
      simp [addToLog, Instr.Bracketed, holds, AddPc.holds]
  | check | grow | growLoop | copyOld | copying | testWaiting =>
      simp only [addToLog, bracketed_stmt]
      intro byte d
      split <;> rfl
  | malloc m => exact bracketed_malloc fun _ _ => rfl
  | _ => simp [addToLog, bracketed_stmt, holds, AddPc.holds]

theorem code_bracketed (p : Pc) : (code p).Bracketed holds p := by
  cases p with
  | idle =>
      intro d e d' q h
      rcases goes_idle ⟨e, h⟩ with ⟨-, rfl⟩ | ⟨data, n, -, -, rfl⟩ <;> rfl
  | addTest c data n =>
      simp only [code, bracketed_stmt]
      intro byte d
      cases data with
      | none => rfl
      | some bs => dsimp only; split <;> rfl
  | addRet c => simp [code, bracketed_stmt, holds]
  | get c s => exact getLog_bracketed c s
  | add c entry s => exact addToLog_bracketed c entry s

theorem goes_counters {p q : Pc} {d d' : Shared} (h : (code p).Goes d q d') :
    d'.log.readers = d.log.readers + (if counted q then 1 else 0) - (if counted p then 1 else 0) ∧
    d'.log.waitingWriters =
      d.log.waitingWriters + (if waiting q then 1 else 0) - (if waiting p then 1 else 0) := by
  cases goes_edge h <;> simp [counted, waiting]

def GetPc.outline (l : Log) : GetPc → Prop
  | .wait => 0 < l.waitingWriters
  | .incReaders => l.waitingWriters ≤ 0
  | _ => True

def AddPc.outline (l : Log) : AddPc → Prop
  | .incWaiting | .check | .testWaiting | .signal | .broadcast | .unlock => l.writers = 0
  | .wait => l.writers = 0 ∧ 0 < l.readers
  | .decWaiting | .setWriter => l.writers = 0 ∧ l.readers ≤ 0
  | _ => l.writers = 1 ∧ l.readers ≤ 0

def outline : Pc → Shared → Prop
  | .get _ s, d => d.log.writers = 0 ∧ GetPc.outline d.log s
  | .add _ _ s, d => AddPc.outline d.log s
  | _, _ => True

def unwritten (d : Shared) : Prop := d.log.writers = 0

theorem outline_congr {d d' : Shared} (h : d'.mem = d.mem) (r : Pc) (hd : outline r d) :
    outline r d' := by
  cases r <;> simp_all [outline]

theorem getLog_verified (c : Nat) (s : GetPc) :
    (getLog c s).Verified holds known unwritten outline (.get c s) := by
  cases s with
  | lock | endLock => exact fun d _ hd => ⟨hd, trivial⟩
  | unlock | endUnlock => exact fun d _ hd => hd.1
  | wait => exact fun d => ⟨fun _ hd => hd.1, fun _ hd => ⟨hd, trivial⟩⟩
  | signal => exact fun _ d _ hd => ⟨hd.1, trivial⟩
  | check =>
      refine verified_held rfl fun _ d hd => ⟨hd.1, ?_⟩
      have hw : d.log.writers = 0 := hd.1
      split <;> simp only [GetPc.outline] <;> omega
  | testReaders =>
      refine verified_held rfl fun _ d hd => ⟨hd.1, ?_⟩
      split <;> trivial
  | incReaders | decReaders => exact verified_held rfl fun _ d hd => ⟨hd.1, trivial⟩
  | malloc =>
      exact malloc_free rfl (fun _ d => ⟨fun hd => hd, fun r hd => hd⟩)
        fun d => ⟨fun hd => hd, outline_congr rfl⟩
  | _ => exact verified_free rfl fun _ d => ⟨fun hd => hd, outline_congr rfl⟩

theorem addToLog_verified (c : Nat) (entry : Entry) (s : AddPc) :
    (addToLog c entry s).Verified holds known unwritten outline (.add c entry s) := by
  cases s with
  | lock | unlock => exact fun d _ hd => hd
  | wait => exact fun d => ⟨fun _ hd => hd.1, fun _ hd => hd⟩
  | signal | broadcast => exact fun _ d _ hd => hd
  | check =>
      apply verified_held rfl
      intro _ d hd
      have hw : d.log.writers = 0 := hd
      by_cases hr : 0 < d.log.readers
      · simp only [hr, gt_iff_lt, true_or, if_true]
        exact ⟨hw, hr⟩
      · simp only [hr, hw, gt_iff_lt, lt_irrefl, or_false, if_false]
        exact ⟨hw, by omega⟩
  | setWriter => exact verified_held rfl fun _ d hd => ⟨rfl, hd.2⟩
  | clear => exact verified_held rfl fun _ d hd => rfl
  | testWaiting | grow | growLoop =>
      apply verified_held rfl
      intro _ d hd
      dsimp only
      split <;> exact hd
  | copyOld | copying =>
      apply verified_held rfl
      intro _ d hd
      split <;> exact hd
  | malloc m => exact malloc_held rfl (fun _ d _ _ hd => hd) fun d hd => hd
  | _ => exact verified_held rfl fun _ d hd => hd

theorem code_verified (p : Pc) : (code p).Verified holds known unwritten outline p := by
  cases p with
  | idle =>
      intro d e d' q h _
      have hedge : Edge d .idle q d' := goes_edge ⟨e, h⟩
      cases hedge <;> exact ⟨fun hd => hd, outline_congr rfl⟩
  | addTest c data n =>
      intro d e d' q h _
      have hedge : Edge d (.addTest c data n) q d' := goes_edge ⟨e, h⟩
      cases hedge <;> exact ⟨fun hd => hd, fun r hr => hr⟩
  | addRet c => exact verified_free rfl fun _ d => ⟨fun hd => hd, outline_congr rfl⟩
  | get c s => exact getLog_verified c s
  | add c entry s => exact addToLog_verified c entry s

theorem lock_outline (Tid : Type) :
    Outline (machine Tid) holds known unwritten outline :=
  ⟨fun _ => code_bracketed, fun _ => code_verified⟩

omit [DecidableEq Tid] in
theorem start_guarded (byte : Nat → Byte) : Guarded (machine Tid) holds (start Tid byte) :=
  ⟨fun t => by simp [start, Phase.holds, holds], fun t => trivial⟩

omit [DecidableEq Tid] in
theorem start_place (byte : Nat → Byte) : (start Tid byte).place = fun _ => .idle := rfl

omit [DecidableEq Tid] in
theorem start_log (byte : Nat → Byte) : (start Tid byte).data.log = ⟨0, 0, 4096, 0, 0, 0⟩ := rfl

variable {byte : Nat → Byte} {σ : LogState Tid}

theorem guarded (h : Reachable (machine Tid) (start Tid byte) σ) : Guarded (machine Tid) holds σ :=
  h.guarded (fun _ => code_bracketed) (start_guarded byte)

theorem annotated (h : Reachable (machine Tid) (start Tid byte) σ) :
    Annotated holds unwritten outline σ :=
  (lock_outline Tid).reachable h (start_guarded byte) (fun _ _ _ => trivial)
    ⟨fun _ => rfl, fun t p hp hh => by obtain rfl : Pc.idle = p := by simpa [start] using hp
                                       simp [holds] at hh⟩

theorem code_wait {p q : Pc} {c : LogCond} (h : code p = .wait c q) :
    (c = .readersCond ∧ ∃ k, p = .get k .wait ∧ q = .get k .check) ∨
      (c = .writersCond ∧ ∃ k e, p = .add k e .wait ∧ q = .add k e .check) := by
  cases p with
  | idle | addTest | addRet => simp [code, stmt] at h
  | get k s =>
      cases s <;> simp [code, getLog, stmt, Malloc] at h
      obtain ⟨rfl, rfl⟩ := h
      exact .inl ⟨rfl, k, rfl, rfl⟩
  | add k e s =>
      cases s <;> simp [code, addToLog, stmt, Malloc] at h
      obtain ⟨rfl, rfl⟩ := h
      exact .inr ⟨rfl, k, e, rfl, rfl⟩

theorem waiter_place (h : Reachable (machine Tid) (start Tid byte) σ) {t : Tid} {q : Pc}
    (hq : (∃ c, σ.phase t = .asleep c q) ∨ σ.phase t = .woken q) :
    (∃ k, q = .get k .check) ∨ ∃ k e, q = .add k e .check := by
  have hres := (guarded h).2 t
  have hi : ∃ c p, code p = .wait c q := by
    rcases hq with ⟨c, hq⟩ | hq <;> rw [hq] at hres
    · exact ⟨c, hres⟩
    · exact hres
  obtain ⟨c, p, hi⟩ := hi
  rcases code_wait hi with ⟨-, k, -, rfl⟩ | ⟨-, k, e, -, rfl⟩
  · exact .inl ⟨k, rfl⟩
  · exact .inr ⟨k, e, rfl⟩

section Counters

variable [Fintype Tid]

theorem readers_eq (h : Reachable (machine Tid) (start Tid byte) σ) :
    σ.data.log.readers = countIn counted σ.place :=
  h.counter counted (fun d => d.log.readers)
    (by rw [start_log, start_place, countIn_eq_zero.2 fun _ => rfl]; rfl)
    fun t p d q d' hg => (goes_counters hg).1

theorem waitingWriters_eq (h : Reachable (machine Tid) (start Tid byte) σ) :
    σ.data.log.waitingWriters = countIn waiting σ.place :=
  h.counter waiting (fun d => d.log.waitingWriters)
    (by rw [start_log, start_place, countIn_eq_zero.2 fun _ => rfl]; rfl)
    fun t p d q d' hg => (goes_counters hg).2

end Counters

end WebServer.LogLock
