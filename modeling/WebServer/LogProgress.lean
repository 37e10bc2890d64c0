import WebServer.LogLock
import WebServer.Wakeups

namespace WebServer.LogProgress

open Monitor ServerLog LogLock

variable {Tid : Type} [DecidableEq Tid] {byte : Nat → Byte} {σ : LogState Tid}

theorem code_signal {p q : Pc} {c : LogCond} (h : code p = .signal c q) : c = .writersCond := by
  cases p with
  | idle | addTest | addRet => simp [code, stmt] at h
  | get k s => cases s <;> simp [code, getLog, stmt, Malloc] at h; exact h.1.symm
  | add k e s => cases s <;> simp [code, addToLog, stmt, Malloc] at h; exact h.1.symm

theorem leaves_waiting {p q : Pc} {d d' : Shared} (h : (code p).Goes d q d')
    (hp : waiting p = true) :
    waiting q = true ∨ ∃ k e, p = .add k e .decWaiting ∧ q = .add k e .setWriter := by
  cases goes_edge h with
  | writeUncounted c e => exact .inr ⟨c, e, rfl, rfl⟩
  | writeHeld | writeFree | writeWoken => exact .inl rfl
  | _ => cases hp

theorem leaves_counted {p q : Pc} {d d' : Shared} (h : (code p).Goes d q d')
    (hp : counted p = true) :
    counted q = true ∨ ∃ k dst n, q = .get k (.testReaders dst n) := by
  cases goes_edge h with
  | readUncounted c dst n => exact .inr ⟨c, dst, n, rfl⟩
  | readUnlocked | allocated | readFailed | copyStarts | byteRead | copyDone | lengthRead | endReadLocked =>
      exact .inl rfl
  | _ => cases hp

/-- Whoever takes the last waiting writer out of the wait loop keeps the duty
to wake the readers until its broadcast. -/
def owesReaders : Pc → Bool
  | .add _ _ s => match s with
    | .lock | .incWaiting | .check | .wait | .decWaiting | .signal | .unlock => false
    | _ => true
  | _ => false

theorem owesReaders_goes {p q : Pc} {d d' : Shared} (h : (code p).Goes d q d')
    (hp : owesReaders p = true) (hb : ∀ r, code p ≠ .broadcast .readersCond r) :
    0 < d'.log.waitingWriters ∨ owesReaders q = true := by
  cases goes_edge h with
  | writeBroadcast => exact absurd rfl (hb _)
  | writersWait c e some => exact .inl some
  | _ => first | exact .inr rfl | cases hp

theorem readers_rule (byte : Nat → Byte) :
    WakeRule (machine Tid) (start Tid byte) .readersCond (fun d => 0 < d.log.waitingWriters)
      (fun _ => false) owesReaders where
  sleep σ t p q hr hp hi := by
    rcases code_wait hi with ⟨-, k, rfl, rfl⟩ | ⟨hc, -⟩
    · exact ((annotated hr).2 t _ hp rfl).2
    · simp at hc
  keep σ t p q d hr hp hg _ hb h := by
    rcases h with h | h
    · have hw := (goes_counters hg).2
      by_cases hpw : waiting p = true
      · rcases leaves_waiting hg hpw with hq | ⟨k, e, rfl, rfl⟩
        · left; simp only [hpw, hq, if_true] at hw; omega
        · exact .inr rfl
      · left; rw [if_neg hpw] at hw; split at hw <;> omega
    · exact owesReaders_goes hg h fun r => (hb r).2
  awake t p c q hi := by
    rcases code_wait hi with ⟨-, k, rfl, -⟩ | ⟨-, k, e, rfl, -⟩ <;> rfl
  resume q hq := by simp at hq
  signal t p q hi := by simpa using code_signal hi

/-- Whoever may have made room for a writer keeps the duty to wake one. A woken
writer has it too, as its own entry leads to the next signal. -/
def owesWriters : Pc → Bool
  | .get _ s => match s with
    | .testReaders _ _ | .signal _ _ => true
    | _ => false
  | .add _ _ s => match s with
    | .lock | .incWaiting | .wait | .broadcast | .unlock => false
    | _ => true
  | _ => false

theorem owesWriters_goes {p q : Pc} {d d' : Shared} (h : (code p).Goes d q d')
    (hp : owesWriters p = true) (hs : ∀ r, code p ≠ .signal .writersCond r)
    (hw : outline p d) (hr : 0 ≤ d.log.readers) (hn : 0 < d.log.waitingWriters) :
    0 < d'.log.readers ∨ owesWriters q = true := by
  cases goes_edge h with
  | readSignalled | writeSignalled => exact absurd rfl (hs _)
  | otherReaders c dst n others => exact .inl (by omega)
  | writeHeld c e held =>
      have hw : d.log.writers = 0 := hw
      exact .inl (by omega)
  | noneWaits c e none => omega
  | _ => first | exact .inr rfl | cases hp

theorem sleeper_place (h : Reachable (machine Tid) (start Tid byte) σ) {c : LogCond} {t : Tid}
    (ht : Sleeps σ c t) : (c = .readersCond ∧ ∃ k, σ.place t = .get k .check) ∨
      (c = .writersCond ∧ ∃ k e, σ.place t = .add k e .check) := by
  obtain ⟨q, hq⟩ := ht
  have hres := (guarded h).2 t
  rw [hq] at hres
  obtain ⟨p, hp⟩ := hres
  have hpl : σ.place t = q := by rw [State.place, hq]; rfl
  rcases code_wait hp with ⟨rfl, k, -, rfl⟩ | ⟨rfl, k, e, -, rfl⟩
  · exact .inl ⟨rfl, k, hpl⟩
  · exact .inr ⟨rfl, k, e, hpl⟩

variable [Fintype Tid]

theorem sleeping_writer_waits (h : Reachable (machine Tid) (start Tid byte) σ)
    (hs : ∃ t, Sleeps σ .writersCond t) : 0 < σ.data.log.waitingWriters := by
  obtain ⟨t, ht⟩ := hs
  rw [waitingWriters_eq h]
  rcases sleeper_place h ht with ⟨hc, -⟩ | ⟨-, k, e, hpl⟩
  · simp at hc
  · exact_mod_cast countIn_pos.2 ⟨t, by rw [hpl]; rfl⟩

theorem writers_rule (byte : Nat → Byte) :
    WakeRule (machine Tid) (start Tid byte) .writersCond (fun d => 0 < d.log.readers)
      (fun q => waiting q && owesWriters q) owesWriters where
  sleep σ t p q hr hp hi := by
    rcases code_wait hi with ⟨hc, -⟩ | ⟨-, k, e, rfl, rfl⟩
    · simp at hc
    · exact ((annotated hr).2 t _ hp rfl).2
  keep σ t p q d hr hp hg hs hb h := by
    have hpos : 0 ≤ σ.data.log.readers := by rw [readers_eq hr]; omega
    rcases h with h | h
    · have hrd := (goes_counters hg).1
      by_cases hpc : counted p = true
      · rcases leaves_counted hg hpc with hq | ⟨k, dst, n, rfl⟩
        · left; simp only [hpc, hq, if_true] at hrd; omega
        · exact .inr rfl
      · left; rw [if_neg hpc] at hrd; split at hrd <;> omega
    · by_cases hh : holds p = true
      · exact owesWriters_goes hg h (fun r => (hb r).1) ((annotated hr).2 t p hp hh) hpos
          (sleeping_writer_waits hr hs)
      · cases p with
        | idle | addTest | addRet => simp [owesWriters] at h
        | get k s => cases s <;> simp_all [owesWriters, holds, GetPc.holds]
        | add k e s => cases s <;> simp_all [owesWriters, holds, AddPc.holds]
  awake t p c q hi := by
    rcases code_wait hi with ⟨-, k, rfl, -⟩ | ⟨-, k, e, rfl, -⟩ <;> rfl
  resume q hq := by simp_all
  signal t p q hi u r s hs := by
    rcases code_wait hs with ⟨hc, -⟩ | ⟨-, k, e, -, rfl⟩
    · simp at hc
    · rfl

omit [Fintype Tid] in
theorem sleeping_reader (h : Reachable (machine Tid) (start Tid byte) σ) (free : σ.owner = none)
    {t : Tid} (ht : Sleeps σ .readersCond t) : 0 < σ.data.log.waitingWriters := by
  have ha := (readers_rule byte).reachable h (fun _ => code_bracketed) (start_guarded byte)
    (fun u ⟨p, hp⟩ => by simp [start] at hp)
  rcases ha ⟨t, ht⟩ with h' | ⟨u, q, -, hq⟩ | ⟨u, p, hp, ho⟩
  · exact h'
  · simp at hq
  · have hu := ((guarded h).1 u).1 (by
      rw [hp]
      cases p with
      | add k e s => cases s <;> simp_all [owesReaders, Phase.holds, holds, AddPc.holds]
      | _ => simp [owesReaders] at ho)
    simp [free] at hu

theorem sleeping_writer (h : Reachable (machine Tid) (start Tid byte) σ) (free : σ.owner = none)
    {t : Tid} (ht : Sleeps σ .writersCond t) :
    0 < σ.data.log.readers ∨ ∃ u q, u ≠ t ∧ σ.phase u = .woken q ∧ waiting q = true := by
  have ha := (writers_rule byte).reachable h (fun _ => code_bracketed) (start_guarded byte)
    (fun u ⟨p, hp⟩ => by simp [start] at hp)
  rcases ha ⟨t, ht⟩ with h' | ⟨u, q, hu, hq⟩ | ⟨u, p, hp, ho⟩
  · exact .inl h'
  · refine .inr ⟨u, q, ?_, hu, by simp_all⟩
    rintro rfl
    obtain ⟨r, hr⟩ := ht
    simp [hr] at hu
  · have hu := ((guarded h).1 u).1 (by
      rw [hp]
      cases p with
      | get k s => cases s <;> simp_all [owesWriters, Phase.holds, holds, GetPc.holds]
      | add k e s => cases s <;> simp_all [owesWriters, Phase.holds, holds, AddPc.holds]
      | _ => simp [owesWriters] at ho)
    simp [free] at hu

omit [DecidableEq Tid] [Fintype Tid] in
theorem ready_of_inCall {p : Pc} (hp : inCall p = true) (h : ∀ q, code p = .lock q → σ.owner = none) :
    ((machine Tid).code t p).Ready σ := by
  have hstmt (f : (Nat → Byte) → Shared → Shared × Pc) : (stmt f).Ready σ :=
    ⟨.junk fun _ => 0, _, _, rfl⟩
  have hmalloc (p : Pc) (size : Shared → Nat) (f : (Nat → Byte) → Shared → Shared × Pc) :
      (Malloc p size f).Ready σ := ⟨.failed, _, _, rfl⟩
  cases p with
  | idle => simp [inCall] at hp
  | addTest c data n => exact hstmt _
  | addRet c => exact hstmt _
  | get c s =>
      cases s with
      | lock | endLock => exact h _ rfl
      | wait | unlock | signal | endUnlock => trivial
      | malloc => exact hmalloc _ _ _
      | _ => exact hstmt _
  | add c entry s =>
      cases s with
      | lock => exact h _ rfl
      | wait | unlock | signal | broadcast => trivial
      | malloc m => exact hmalloc _ _ _
      | _ => exact hstmt _

omit [Fintype Tid] in
theorem awake_steps (free : σ.owner = none) {t : Tid} (hp : inCall (σ.place t) = true)
    (ha : ∀ c, ¬ Sleeps σ c t) : ∃ τ, Exec (machine Tid) t σ τ := by
  cases hφ : σ.phase t with
  | run p =>
      rw [place_of_run hφ] at hp
      exact exec_exists hφ (ready_of_inCall hp fun _ _ => free)
  | asleep c q => exact absurd ⟨q, hφ⟩ (ha c)
  | woken q => exact ⟨_, .relock hφ free⟩

omit [Fintype Tid] in
theorem reader_awake (h : Reachable (machine Tid) (start Tid byte) σ) {t : Tid}
    (ht : counted (σ.place t) = true) (c : LogCond) : ¬ Sleeps σ c t := by
  intro hs
  rcases sleeper_place h hs with ⟨-, k, hp⟩ | ⟨-, k, e, hp⟩ <;> simp [hp, counted] at ht

omit [DecidableEq Tid] [Fintype Tid] in
theorem inCall_of_counted {p : Pc} (h : counted p = true) : inCall p = true := by
  cases p <;> simp_all [counted, inCall]

omit [DecidableEq Tid] [Fintype Tid] in
theorem inCall_of_waiting {p : Pc} (h : waiting p = true) : inCall p = true := by
  cases p <;> simp_all [waiting, inCall]

omit [DecidableEq Tid] [Fintype Tid] in
theorem inCall_of_holds {p : Pc} (h : holds p = true) : inCall p = true := by
  cases p <;> simp_all [holds, inCall]

/-- Some thread inside the two functions can step by itself. -/
def Moves (σ : LogState Tid) : Prop :=
  ∃ t τ, inCall (σ.place t) = true ∧ Exec (machine Tid) t σ τ

theorem moves_of_sleeping_writer (h : Reachable (machine Tid) (start Tid byte) σ)
    (free : σ.owner = none) {t : Tid} (ht : Sleeps σ .writersCond t) : Moves σ := by
  rcases sleeping_writer h free ht with hr | ⟨u, q, -, hu, hq⟩
  · rw [readers_eq h] at hr
    obtain ⟨u, hu⟩ := countIn_pos.1 (Int.natCast_pos.1 hr)
    obtain ⟨τ, hτ⟩ := awake_steps free (inCall_of_counted hu) (reader_awake h hu)
    exact ⟨u, τ, inCall_of_counted hu, hτ⟩
  · have hp : σ.place u = q := by rw [State.place, hu]; rfl
    exact ⟨u, _, inCall_of_waiting (hp ▸ hq), .relock hu free⟩

theorem moves_of_waiting (h : Reachable (machine Tid) (start Tid byte) σ) (free : σ.owner = none)
    {t : Tid} (ht : waiting (σ.place t) = true) : Moves σ := by
  by_cases hs : Sleeps σ .writersCond t
  · exact moves_of_sleeping_writer h free hs
  · obtain ⟨τ, hτ⟩ := awake_steps free (inCall_of_waiting ht) (t := t) fun c hc => by
      rcases sleeper_place h hc with ⟨-, k, hp⟩ | ⟨rfl, -⟩
      · simp [hp, waiting] at ht
      · exact hs hc
    exact ⟨t, τ, inCall_of_waiting ht, hτ⟩

theorem moves_of_inCall (h : Reachable (machine Tid) (start Tid byte) σ) {t : Tid}
    (ht : inCall (σ.place t) = true) : Moves σ := by
  cases ho : σ.owner with
  | some u =>
      have hu := ((guarded h).1 u).2 ho
      cases hφ : σ.phase u with
      | run p =>
          rw [hφ] at hu
          obtain ⟨τ, hτ⟩ := exec_exists (M := machine Tid) hφ
            (ready_of_inCall (inCall_of_holds hu) fun q hq => by
              have hb := code_bracketed p
              rw [hq] at hb
              simp [Instr.Bracketed, show holds p = true from hu] at hb)
          exact ⟨u, τ, by rw [place_of_run hφ]; exact inCall_of_holds hu, hτ⟩
      | asleep c q | woken q => rw [hφ] at hu; simp [Phase.holds] at hu
  | none =>
      by_cases hs : ∃ c, Sleeps σ c t
      · obtain ⟨c, hc⟩ := hs
        rcases sleeper_place h hc with ⟨rfl, -⟩ | ⟨rfl, -⟩
        · have hw := sleeping_reader h ho hc
          rw [waitingWriters_eq h] at hw
          obtain ⟨u, hu⟩ := countIn_pos.1 (Int.natCast_pos.1 hw)
          exact moves_of_waiting h ho hu
        · exact moves_of_sleeping_writer h ho hc
      · obtain ⟨τ, hτ⟩ := awake_steps ho ht fun c hc => hs ⟨c, hc⟩
        exact ⟨t, τ, ht, hτ⟩

/-- The log never gets stuck, whatever the order of steps and however many
wakeups come unasked. -/
theorem log_never_stuck (h : Reachable (machine Tid) (start Tid byte) σ) :
    (∀ t, inCall (σ.place t) = true → Moves σ) ∧
    (σ.owner = none → ∀ t, Sleeps σ .readersCond t → 0 < σ.data.log.waitingWriters) ∧
    (σ.owner = none → ∀ t, Sleeps σ .writersCond t → 0 < σ.data.log.readers ∨
      ∃ u q, u ≠ t ∧ σ.phase u = .woken q ∧ waiting q = true) ∧
    σ.data.log.waitingWriters = countIn waiting σ.place :=
  ⟨fun _ ht => moves_of_inCall h ht, fun free _ ht => sleeping_reader h free ht,
    fun free _ ht => sleeping_writer h free ht, waitingWriters_eq h⟩

def bothAsleep : List (Fin 3 × Choice) :=
  let go (t : Fin 3) (n : Nat) : List (Fin 3 × Choice) := List.replicate n (t, .junk fun _ => 0)
  (1, .getLog) :: go 1 4 ++ (0, .addToLog (some [97]) ⟨1, one_fits⟩) :: go 0 5 ++
    (2, .getLog) :: go 2 3

theorem bothAsleep_runs :
    ((machine (Fin 3)).replay bothAsleep (start (Fin 3) fun _ => 0)).isSome = true := by
  decide +kernel

theorem log_never_stuck_asleep : ∃ σ, Reachable (machine (Fin 3)) (start (Fin 3) fun _ => 0) σ ∧
    Sleeps σ .readersCond 2 ∧ Sleeps σ .writersCond 0 ∧ Moves σ := by
  have h := replay_reachable (Option.some_get bothAsleep_runs).symm
  refine ⟨_, h, sleeps_iff.1 (by decide +kernel), sleeps_iff.1 (by decide +kernel), ?_⟩
  exact (log_never_stuck h).1 0 (by decide +kernel)

end WebServer.LogProgress
