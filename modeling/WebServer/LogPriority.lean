import WebServer.LogAtomic

namespace WebServer.LogPriority

open Monitor ServerLog LogLock LogBuffer LogContent LogAtomic

variable {Tid : Type} [DecidableEq Tid] {byte : Nat → Byte} {σ : LogState Tid}

/-- A run in which no thread enters the write section. -/
inductive Quiet (σ : LogState Tid) : LogState Tid → Prop
  | start : Quiet σ σ
  | next {τ υ : LogState Tid} : Quiet σ τ → Step (machine Tid) τ υ →
      (∀ t, inWrite (υ.place t) = true → inWrite (τ.place t) = true) → Quiet σ υ

/-- Thread `r` gets to read before anyone gets to write. -/
def Overtakes (σ : LogState Tid) (r : Tid) : Prop :=
  ∃ τ, Quiet σ τ ∧ inRead (σ.place r) = false ∧ inRead (τ.place r) = true

def inStartRead : Pc → Bool
  | .get _ s => match s with
    | .lock | .check | .wait | .incReaders | .unlock => true
    | _ => false
  | _ => false

def inStartWrite : Pc → Bool
  | .add _ _ s => match s with
    | .lock | .incWaiting | .check | .wait | .decWaiting | .setWriter => true
    | _ => false
  | _ => false

/-- A writer that has run as far as it can inside `log_start_write`. -/
def Blocked (σ : LogState Tid) (t : Tid) : Prop :=
  inStartWrite (σ.place t) = true ∧ ∀ τ, ¬ Exec (machine Tid) t σ τ

/-- Writers that are blocked when a write ends go before every reader. -/
def WriterPriority (Tid : Type) [DecidableEq Tid] (byte : Nat → Byte) : Prop :=
  ∀ σ, Reachable (machine Tid) (start Tid byte) σ → ∀ w₀ w₁, inWrite (σ.place w₀) = true →
    w₁ ≠ w₀ → Blocked σ w₁ → ∀ r, ¬ Overtakes σ r

variable {τ υ : LogState Tid}

theorem Quiet.reachable (h : Quiet σ τ) : Reachable (machine Tid) σ τ := by
  induction h with
  | start => exact .start
  | next _ hs _ ih => exact ih.next hs

theorem Quiet.trans (h : Quiet σ τ) (h' : Quiet τ υ) : Quiet σ υ := by
  induction h' with
  | start => exact h
  | next _ hs hw ih => exact ih.next hs hw

def passing : Pc → Bool
  | .get _ s => match s with
    | .incReaders | .unlock | .malloc | .memcpy _ | .copying .. | .result _ => true
    | _ => false
  | _ => false

/-- A writer is counted as waiting, or just about to set `writers`, and no
reader is past its test. -/
def HeldBack (σ : LogState Tid) : Prop :=
  (0 < σ.data.log.waitingWriters ∨ ∃ t k e, σ.place t = .add k e .setWriter) ∧
    ∀ t, passing (σ.place t) = false

theorem enters_passing {p q : Pc} {d d' : Shared} (h : (code p).Goes d q d')
    (hp : passing p = false) (hq : passing q = true) :
    ∃ k, p = .get k .check ∧ d.log.waitingWriters ≤ 0 := by
  cases goes_edge h with
  | readFree c none first => exact ⟨c, rfl, first⟩
  | _ => simp_all [passing]

theorem keeps_waiting {p q : Pc} {d d' : Shared} (h : (code p).Goes d q d')
    (hw : 0 < d.log.waitingWriters) :
    0 < d'.log.waitingWriters ∨ ∃ k e, q = .add k e .setWriter := by
  cases goes_edge h with
  | writeUncounted c e => exact .inr ⟨c, e, rfl⟩
  | writeCounted => exact .inl (show 0 < d.log.waitingWriters + 1 by omega)
  | _ => exact .inl hw

theorem owner_of_holds (hr : Reachable (machine Tid) (start Tid byte) σ) {t : Tid}
    (ht : holds (σ.place t) = true) (hc : ∀ k, σ.place t ≠ .get k .check)
    (hc' : ∀ k e, σ.place t ≠ .add k e .check) : σ.owner = some t := by
  refine ((guarded hr).1 t).1 ?_
  cases hφ : σ.phase t with
  | run p => rwa [place_of_run hφ] at ht
  | asleep c q | woken q =>
      have hpl : σ.place t = q := by rw [State.place, hφ]; rfl
      have hw : (∃ c, σ.phase t = .asleep c q) ∨ σ.phase t = .woken q := by simp [hφ]
      rcases waiter_place hr hw with ⟨k, rfl⟩ | ⟨k, e, rfl⟩
      · exact absurd hpl (hc k)
      · exact absurd hpl (hc' k e)

theorem exec_heldBack (hr : Reachable (machine Tid) (start Tid byte) σ) {t : Tid}
    (h : Exec (machine Tid) t σ τ) (hb : HeldBack σ)
    (quiet : ∀ u, inWrite (τ.place u) = true → inWrite (σ.place u) = true) : HeldBack τ := by
  rcases exec_goes h with ⟨-, hpl, hd⟩ | ⟨p, q, hp, hg, hpl⟩
  · exact ⟨by rw [hpl, hd]; exact hb.1, fun u => by rw [hpl]; exact hb.2 u⟩
  have hp' := place_of_run hp
  constructor
  · rcases hb.1 with hw | ⟨u, k, e, hu⟩
    · refine (keeps_waiting hg hw).imp_right fun ⟨k, e, hq⟩ => ⟨t, k, e, ?_⟩
      rw [hpl, Function.update_self, hq]
    · right
      by_cases hut : u = t
      · subst u
        obtain rfl : p = .add k e .setWriter := hp'.symm.trans hu
        obtain ⟨byte, -, rfl⟩ := goes_stmt.1 hg
        have hin := quiet t (by rw [hpl, Function.update_self]; rfl)
        rw [hu] at hin
        simp [inWrite] at hin
      · exact ⟨u, k, e, by rw [hpl, Function.update_of_ne hut, hu]⟩
  · intro u
    by_cases hut : u = t
    · subst u
      rw [hpl, Function.update_self]
      by_contra hq
      rw [Bool.not_eq_false] at hq
      obtain ⟨k, rfl, hw⟩ := enters_passing hg (hp' ▸ hb.2 t) hq
      rcases hb.1 with hw' | ⟨u, k', e, hu⟩
      · omega
      · have ht := ((guarded hr).1 t).1 (by rw [hp]; rfl)
        have hu' := owner_of_holds hr (t := u) (by rw [hu]; rfl) (by simp [hu]) (by simp [hu])
        obtain rfl : t = u := by simpa [ht] using hu'
        simp [hp'] at hu
    · rw [hpl, Function.update_of_ne hut]
      exact hb.2 u

theorem quiet_heldBack (hr : Reachable (machine Tid) (start Tid byte) σ) (h : Quiet σ τ)
    (hb : HeldBack σ) : HeldBack τ := by
  induction h with
  | start => exact hb
  | next hq hs hw ih =>
      cases hs with
      | exec t live h => exact exec_heldBack (hr.trans hq.reachable) h ih hw
      | spurious u live h =>
          obtain ⟨hpl, hd, -⟩ := spurious_place h
          exact ⟨by rw [hpl, hd]; exact ih.1, fun t => by rw [hpl]; exact ih.2 t⟩

theorem owner_of_inWrite (hr : Reachable (machine Tid) (start Tid byte) σ) {t : Tid}
    (ht : inWrite (σ.place t) = true) : σ.owner = some t :=
  owner_of_holds hr (holds_of_inWrite ht) (fun k hk => by simp [hk, inWrite] at ht)
    fun k e hk => by simp [hk, inWrite] at ht

theorem no_overtaking [Fintype Tid] (hr : Reachable (machine Tid) (start Tid byte) σ) {w₀ : Tid}
    (hw₀ : inWrite (σ.place w₀) = true) (hw : 0 < σ.data.log.waitingWriters) (r : Tid) :
    ¬ Overtakes σ r := by
  rintro ⟨τ, hq, -, hin⟩
  have hb : HeldBack σ := by
    refine ⟨.inl hw, fun t => ?_⟩
    by_contra hp
    rw [Bool.not_eq_false] at hp
    cases hin : inRead (σ.place t) with
    | true => simp [no_read_in_write hr hin] at hw₀
    | false =>
        have ho : σ.owner = some t := by
          refine owner_of_holds hr ?_ (fun k hk => ?_) fun k e hk => ?_
          · generalize σ.place t = p at hp hin
            cases p with
            | get c s => cases s <;> simp_all [passing, inRead, holds, GetPc.holds]
            | _ => simp [passing] at hp
          · simp [hk, passing] at hp
          · simp [hk, passing] at hp
        obtain rfl : w₀ = t := by simpa [ho] using (owner_of_inWrite hr hw₀).symm
        generalize σ.place w₀ = p at hp hw₀
        cases p with
        | get c s => simp [inWrite] at hw₀
        | _ => simp [passing] at hp
  have hp := (quiet_heldBack hr hq hb).2 r
  generalize τ.place r = p at hin hp
  cases p with
  | get c s => cases s <;> simp_all [inRead, passing]
  | _ => simp [inRead] at hin

def AddPc.left (l : Log) (entry : List Byte) : AddPc → Nat
  | .grow => 11 + entry.length + l.size + sizeT (l.size + entry.length + 1)
  | .growLoop m => 10 + entry.length + l.size + (sizeT (l.size + entry.length + 1) - m)
  | .malloc _ => 9 + entry.length + l.size
  | .copyOld _ _ _ n i => 8 + entry.length + (n - i)
  | .free _ _ => 7 + entry.length
  | .setBuffer _ _ => 6 + entry.length
  | .setCapacity _ => 5 + entry.length
  | .memcpy => 4 + entry.length
  | .copying _ _ i => 3 + (entry.length - i)
  | .addSize => 2
  | .terminate => 1
  | _ => 0

theorem quiet_step {t : Tid} (live : σ.data.running = true) (h : Exec (machine Tid) t σ τ)
    (hme : inWrite (τ.place t) = true → inWrite (σ.place t) = true) : Quiet σ τ := by
  refine .next .start (.exec t live h) fun u hu => ?_
  by_cases hut : u = t
  · subst u; exact hme hu
  · rcases exec_goes h with ⟨-, hpl, -⟩ | ⟨p, q, -, -, hpl⟩
    · rwa [hpl] at hu
    · rwa [hpl, Function.update_of_ne hut] at hu

def Acts (p : Pc) (d : Shared) (q : Pc) (d' : Shared) : Prop :=
  ∃ f e, code p = .act f ∧ f d e = some (d', q)

def afterAct (σ : LogState Tid) (t : Tid) (q : Pc) (d : Shared) : LogState Tid :=
  ⟨σ.owner, Function.update σ.phase t (.run q), d⟩

theorem acts_stmt {p q : Pc} {d d' : Shared} {f : (Nat → Byte) → Shared → Shared × Pc}
    (hc : code p = stmt f) (h : f (fun _ => 0) d = (d', q)) : Acts p d q d' :=
  ⟨_, .junk fun _ => 0, hc, congrArg some h⟩

theorem acts_malloc {p q : Pc} {d d' : Shared} {size : Shared → Nat}
    {f : (Nat → Byte) → Shared → Shared × Pc} (hc : code p = Malloc p size f) (hsize : size d < 2 ^ 63)
    (h : f (fun _ => 0) d = (d', q)) : Acts p d q d' :=
  ⟨_, .junk fun _ => 0, hc, (if_pos hsize).trans (congrArg some h)⟩

theorem Acts.exec {t : Tid} {p q : Pc} {d : Shared} (h : Acts p σ.data q d)
    (hp : σ.phase t = .run p) : Exec (machine Tid) t σ (afterAct σ t q d) := by
  obtain ⟨f, e, hc, hf⟩ := h
  exact .act e hp hc hf

theorem write_step (hr : Reachable (machine Tid) (start Tid byte) σ)
    (hb : (logged σ.data.trace).length < 2 ^ 61) {t : Tid} {c : Nat} {e : Entry} {s : AddPc}
    (hp : σ.phase t = .run (.add c e s)) (hs : inWrite (.add c e s) = true) :
    ∃ s' d, Acts (.add c e s) σ.data (.add c e s') d ∧
      (inWrite (.add c e s') = true ∨ s' = .clear) ∧ d.running = σ.data.running ∧
      d.log.waitingWriters = σ.data.log.waitingWriters ∧ d.trace = σ.data.trace ∧
      AddPc.left d.log e.bytes s' < AddPc.left σ.data.log e.bytes s := by
  have hcon : Sized σ.data.mem (logged σ.data.trace) e.bytes s :=
    (sized_annotated hr).2 t _ hp (holds_of_inWrite hs)
  cases s with
  | lock | incWaiting | check | wait | decWaiting | setWriter => simp [inWrite] at hs
  | clear | testWaiting | signal | broadcast | unlock => simp [inWrite] at hs
  | grow =>
      by_cases hg : sizeT (σ.data.log.size + e.bytes.length + 1) ≥ σ.data.log.capacity
      · refine ⟨.growLoop (sizeT (σ.data.log.capacity * 2)), _, acts_stmt rfl (by simp only [if_pos hg]),
          .inl rfl, rfl, rfl, rfl, ?_⟩
        simp only [AddPc.left]
        omega
      · refine ⟨.memcpy, _, acts_stmt rfl (by simp only [if_neg hg]), .inl rfl, rfl, rfl, rfl, ?_⟩
        simp only [AddPc.left]
        omega
  | growLoop m =>
      have hlow := (hcon.next m rfl).1.low
      by_cases hg : m < sizeT (σ.data.log.size + e.bytes.length + 1)
      · have hm := (hcon.double e.fits hg).2
        refine ⟨.growLoop (sizeT (m * 2)), _, acts_stmt rfl (by simp only [if_pos hg]), .inl rfl,
          rfl, rfl, rfl, ?_⟩
        simp only [AddPc.left, hm]
        omega
      · refine ⟨.malloc m, _, acts_stmt rfl (by simp only [if_neg hg]), .inl rfl, rfl, rfl, rfl, ?_⟩
        simp only [AddPc.left]
        omega
  | malloc m =>
      have hfits := e.fits
      have hhigh := hcon.content.1.high
      exact ⟨_, _, acts_malloc rfl (by show m < _; omega) rfl, .inl rfl, rfl, rfl, rfl,
        by simp [AddPc.left]⟩
  | copyOld m new src n i =>
      by_cases hi : i < n
      · refine ⟨.copyOld m new src n (i + 1),
          { σ.data with mem := σ.data.mem.store new i (σ.data.mem.load src i 0) },
          acts_stmt rfl (by simp only [if_pos hi]), .inl rfl, rfl, rfl, rfl, ?_⟩
        simp only [AddPc.left]
        omega
      · refine ⟨.free m new, _, acts_stmt rfl (by simp only [if_neg hi]), .inl rfl, rfl, rfl, rfl, ?_⟩
        simp only [AddPc.left]
        omega
  | copying dst off i =>
      cases hi : e.bytes[i]? with
      | some b =>
          obtain ⟨hlt, -⟩ := List.getElem?_eq_some_iff.1 hi
          refine ⟨.copying dst off (i + 1), { σ.data with mem := σ.data.mem.store dst (off + i) b },
            acts_stmt rfl (by simp only [hi]), .inl rfl, rfl, rfl, rfl, ?_⟩
          simp only [AddPc.left]
          omega
      | none =>
          refine ⟨.addSize, _, acts_stmt rfl (by simp only [hi]), .inl rfl, rfl, rfl, rfl, ?_⟩
          simp only [AddPc.left]
          omega
  | terminate => exact ⟨.clear, _, acts_stmt rfl rfl, .inr rfl, rfl, rfl, rfl, by simp [AddPc.left]⟩
  | _ => exact ⟨_, _, acts_stmt rfl rfl, .inl rfl, rfl, rfl, rfl, by simp [AddPc.left]⟩

theorem write_ends (hr : Reachable (machine Tid) (start Tid byte) σ) (live : σ.data.running = true)
    (hb : (logged σ.data.trace).length < 2 ^ 61) {t : Tid} {c : Nat} {e : Entry} {s : AddPc}
    (hp : σ.phase t = .run (.add c e s)) (hs : inWrite (.add c e s) = true) :
    ∃ τ, Quiet σ τ ∧ τ.data.running = true ∧ τ.phase t = .run (.add c e .clear) ∧
      (∀ u ≠ t, τ.phase u = σ.phase u) ∧
      τ.data.log.waitingWriters = σ.data.log.waitingWriters := by
  induction hn : AddPc.left σ.data.log e.bytes s using Nat.strong_induction_on generalizing σ s with
  | _ n ih =>
      obtain ⟨s', d, hacts, hs', hlive, hw, ht, hl⟩ := write_step hr hb hp hs
      have hq : Quiet σ (afterAct σ t (.add c e s') d) :=
        quiet_step live (hacts.exec hp) fun _ => by rw [place_of_run hp, hs]
      have hp' : (afterAct σ t (.add c e s') d).phase t = .run (.add c e s') := Function.update_self ..
      have hother : ∀ u ≠ t, (afterAct σ t (.add c e s') d).phase u = σ.phase u :=
        fun u hu => Function.update_of_ne hu _ _
      have hlive' : (afterAct σ t (.add c e s') d).data.running = true := hlive.trans live
      rcases hs' with hs' | rfl
      · obtain ⟨τ, hqτ, hlτ, hpτ, hoτ, hwτ⟩ := ih _ (hn ▸ hl) (hr.trans hq.reachable) hlive'
          (by rw [afterAct, ht]; exact hb) hp' hs' rfl
        exact ⟨τ, hq.trans hqτ, hlτ, hpτ, fun u hu => (hoτ u hu).trans (hother u hu), hwτ.trans hw⟩
      · exact ⟨_, hq, hlive', hp', hother, hw⟩

theorem write_opens {t : Tid} {c : Nat} {e : Entry} (live : σ.data.running = true)
    (hp : σ.phase t = .run (.add c e .clear)) (hw : σ.data.log.waitingWriters ≤ 0) :
    ∃ τ, Quiet σ τ ∧ τ.data.running = true ∧ τ.owner = none ∧ τ.phase t = .run (.addRet c) ∧
      (∀ u ≠ t, τ.phase u = wakeSet (fun v => (σ.phase v).sleeps .readersCond) σ.phase u) ∧
      τ.data.log.waitingWriters ≤ 0 := by
  let σ₁ := afterAct σ t (.add c e .testWaiting)
    { σ.data with mem.log.writers := 0, trace := σ.data.trace ++ [.wrote c e.bytes] }
  let σ₂ := afterAct σ₁ t (.add c e .broadcast) σ₁.data
  let W (v : Tid) : Bool := (σ₂.phase v).sleeps .readersCond
  let σ₃ : LogState Tid :=
    ⟨σ₂.owner, Function.update (wakeSet W σ₂.phase) t (.run (.add c e .unlock)), σ₂.data⟩
  let σ₄ : LogState Tid := ⟨none, Function.update σ₃.phase t (.run (.addRet c)), σ₃.data⟩
  have hw₁ : ¬ σ₁.data.log.waitingWriters > 0 := not_lt.2 hw
  have hp₁ : σ₁.phase t = .run (.add c e .testWaiting) := Function.update_self ..
  have hp₂ : σ₂.phase t = .run (.add c e .broadcast) := Function.update_self ..
  have hp₃ : σ₃.phase t = .run (.add c e .unlock) := Function.update_self ..
  have h₁ : Exec (machine Tid) t σ σ₁ := (acts_stmt rfl rfl).exec hp
  have h₂ : Exec (machine Tid) t σ₁ σ₂ :=
    (acts_stmt rfl (by rw [if_neg hw₁])).exec hp₁
  have h₃ : Exec (machine Tid) t σ₂ σ₃ := .broadcast W hp₂ rfl fun u => sleeps_iff
  have h₄ : Exec (machine Tid) t σ₃ σ₄ := .unlock hp₃ rfl
  have hother {u} (hu : u ≠ t) : σ₂.phase u = σ.phase u := by simp [σ₂, σ₁, afterAct, hu]
  have out {υ υ' : LogState Tid} {p} (live : υ.data.running = true) (h : Exec (machine Tid) t υ υ')
      (hp : υ'.phase t = .run p) (hn : inWrite p = false) : Quiet υ υ' :=
    quiet_step live h fun hin => by rw [place_of_run hp, hn] at hin; simp at hin
  refine ⟨σ₄, ?_, live, rfl, Function.update_self .., fun u hu => ?_, hw⟩
  · refine (((out live h₁ hp₁ rfl).trans (out live h₂ hp₂ rfl)).trans (out live h₃ hp₃ rfl)).trans ?_
    exact out live h₄ (Function.update_self ..) rfl
  · simp only [σ₄, σ₃, Function.update_of_ne hu, wakeSet, W, hother hu]

theorem reader_enters (hr : Reachable (machine Tid) (start Tid byte) σ)
    (live : σ.data.running = true) (free : σ.owner = none) (hw : σ.data.log.waitingWriters ≤ 0)
    {r : Tid} {k : Nat} (hp : σ.phase r = .run (.get k .lock) ∨ σ.phase r = .woken (.get k .check)) :
    ∃ τ, Quiet σ τ ∧ inRead (τ.place r) = true := by
  have hun : σ.data.log.writers = 0 := (annotated hr).1 free
  let σ₁ : LogState Tid := ⟨some r, Function.update σ.phase r (.run (.get k .check)), σ.data⟩
  let σ₂ := afterAct σ₁ r (.get k .incReaders) σ₁.data
  let σ₃ := afterAct σ₂ r (.get k .unlock)
    { σ₂.data with mem.log.readers := σ₂.data.log.readers + 1 }
  let σ₄ : LogState Tid := ⟨none, Function.update σ₃.phase r (.run (.get k .malloc)), σ₃.data⟩
  have hfree : ¬ (σ₁.data.log.writers > 0 ∨ σ₁.data.log.waitingWriters > 0) := by
    rw [not_or]
    exact ⟨by simp only [σ₁]; omega, not_lt.2 hw⟩
  have hp₁ : σ₁.phase r = .run (.get k .check) := Function.update_self ..
  have hp₂ : σ₂.phase r = .run (.get k .incReaders) := Function.update_self ..
  have hp₃ : σ₃.phase r = .run (.get k .unlock) := Function.update_self ..
  have hp₄ : σ₄.phase r = .run (.get k .malloc) := Function.update_self ..
  have h₁ : Exec (machine Tid) r σ σ₁ := by
    rcases hp with hp | hp
    · exact .lock hp rfl free
    · exact .relock hp free
  have h₂ : Exec (machine Tid) r σ₁ σ₂ := (acts_stmt rfl (by rw [if_neg hfree])).exec hp₁
  have h₃ : Exec (machine Tid) r σ₂ σ₃ := (acts_stmt rfl rfl).exec hp₂
  have h₄ : Exec (machine Tid) r σ₃ σ₄ := .unlock hp₃ rfl
  have reading {υ υ' : LogState Tid} {s} (live : υ.data.running = true)
      (h : Exec (machine Tid) r υ υ') (hp : υ'.phase r = .run (.get k s)) : Quiet υ υ' :=
    quiet_step live h fun hin => by rw [place_of_run hp] at hin; simp [inWrite] at hin
  refine ⟨σ₄, ?_, by rw [place_of_run hp₄]; rfl⟩
  refine (((reading live h₁ hp₁).trans (reading live h₂ hp₂)).trans (reading live h₃ hp₃)).trans ?_
  exact reading live h₄ hp₄

theorem queued_phase (hr : Reachable (machine Tid) (start Tid byte) σ) {w₀ r : Tid}
    (hw₀ : inWrite (σ.place w₀) = true) (hq : inStartRead (σ.place r) = true) :
    ∃ k, σ.phase r = .run (.get k .lock) ∨ σ.phase r = .asleep .readersCond (.get k .check) ∨
      σ.phase r = .woken (.get k .check) := by
  cases hφ : σ.phase r with
  | run p =>
      rw [place_of_run hφ] at hq
      cases p with
      | get k s =>
          by_cases hs : s = .lock
          · exact ⟨k, .inl (by rw [hs])⟩
          · have ho := ((guarded hr).1 r).1 (by
              rw [hφ]
              cases s <;> simp_all [inStartRead, Phase.holds, holds, GetPc.holds])
            obtain rfl : w₀ = r := by simpa [ho] using (owner_of_inWrite hr hw₀).symm
            simp [place_of_run hφ, inWrite] at hw₀
      | _ => simp [inStartRead] at hq
  | asleep c q =>
      have hpl : σ.place r = q := by rw [State.place, hφ]; rfl
      rw [hpl] at hq
      have hres := (guarded hr).2 r
      rw [hφ] at hres
      obtain ⟨p, hi⟩ := hres
      rcases code_wait hi with ⟨rfl, k, -, rfl⟩ | ⟨-, k, e, -, rfl⟩
      · exact ⟨k, .inr (.inl rfl)⟩
      · simp [inStartRead] at hq
  | woken q =>
      have hpl : σ.place r = q := by rw [State.place, hφ]; rfl
      rw [hpl] at hq
      rcases waiter_place hr (.inr hφ) with ⟨k, rfl⟩ | ⟨k, e, rfl⟩
      · exact ⟨k, .inr (.inr rfl)⟩
      · simp [inStartRead] at hq

theorem write_gives_way (hr : Reachable (machine Tid) (start Tid byte) σ)
    (live : σ.data.running = true) (hb : (logged σ.data.trace).length < 2 ^ 61) {w₀ : Tid}
    (hw₀ : inWrite (σ.place w₀) = true) (hw : σ.data.log.waitingWriters ≤ 0) :
    ∃ τ c, Quiet σ τ ∧ τ.data.running = true ∧ τ.owner = none ∧ τ.phase w₀ = .run (.addRet c) ∧
      (∀ u ≠ w₀, τ.phase u = wakeSet (fun v => (σ.phase v).sleeps .readersCond) σ.phase u) ∧
      τ.data.log.waitingWriters ≤ 0 := by
  have hrun := run_of_inWrite hr hw₀
  generalize σ.place w₀ = p at hw₀ hrun
  cases p with
  | add c e s =>
      obtain ⟨σ₁, hq₁, hl₁, hp₁, ho₁, hw₁⟩ := write_ends hr live hb hrun hw₀
      obtain ⟨τ, hq₂, hl₂, free, hp₂, ho₂, hw₂⟩ := write_opens hl₁ hp₁ (hw₁ ▸ hw)
      refine ⟨τ, c, hq₁.trans hq₂, hl₂, free, hp₂, fun u hu => ?_, hw₂⟩
      rw [ho₂ u hu, wakeSet, wakeSet, ho₁ u hu]
  | _ => simp [inWrite] at hw₀

theorem queued_overtakes [Fintype Tid] (hr : Reachable (machine Tid) (start Tid byte) σ)
    (live : σ.data.running = true) (hb : (logged σ.data.trace).length < 2 ^ 61) {w₀ : Tid}
    (hw₀ : inWrite (σ.place w₀) = true) (hw : σ.data.log.waitingWriters ≤ 0) {r : Tid}
    (hq : inStartRead (σ.place r) = true) : Overtakes σ r := by
  have hne : r ≠ w₀ := by
    rintro rfl
    cases hpl : σ.place r <;> simp [hpl, inStartRead, inWrite] at hq hw₀
  obtain ⟨τ, c, hqτ, hlτ, free, -, ho, hwτ⟩ := write_gives_way hr live hb hw₀ hw
  obtain ⟨k, hk⟩ := queued_phase hr hw₀ hq
  have hp : τ.phase r = .run (.get k .lock) ∨ τ.phase r = .woken (.get k .check) := by
    rw [ho r hne]
    rcases hk with hk | hk | hk <;> simp [wakeSet, hk, Phase.sleeps, Phase.wake]
  obtain ⟨υ, hqυ, hin⟩ := reader_enters (hr.trans hqτ.reachable) hlτ free hwτ hp
  refine ⟨υ, hqτ.trans hqυ, ?_, hin⟩
  cases hpl : σ.place r with
  | get k s => rw [hpl] at hq; cases s <;> simp_all [inStartRead, inRead]
  | _ => rfl

theorem writer_overtakes (hr : Reachable (machine Tid) (start Tid byte) σ)
    (live : σ.data.running = true) (hb : (logged σ.data.trace).length < 2 ^ 61) {w₀ : Tid}
    (hw₀ : inWrite (σ.place w₀) = true) (hw : σ.data.log.waitingWriters ≤ 0) : Overtakes σ w₀ := by
  obtain ⟨τ, c, hqτ, hlτ, free, hp, -, hwτ⟩ := write_gives_way hr live hb hw₀ hw
  let σ₁ := afterAct τ w₀ .idle { τ.data with trace := τ.data.trace ++ [.retAdd c] }
  let σ₂ := afterAct σ₁ w₀ (.get σ₁.data.calls .lock) { σ₁.data with
    calls := σ₁.data.calls + 1, trace := σ₁.data.trace ++ [.callGet σ₁.data.calls] }
  have hp₁ : σ₁.phase w₀ = .run .idle := Function.update_self ..
  have hp₂ : σ₂.phase w₀ = .run (.get σ₁.data.calls .lock) := Function.update_self ..
  have h₁ : Exec (machine Tid) w₀ τ σ₁ := (acts_stmt rfl rfl).exec hp
  have h₂ : Exec (machine Tid) w₀ σ₁ σ₂ := .act .getLog hp₁ rfl rfl
  have hq : Quiet σ σ₂ := by
    refine (hqτ.trans (quiet_step hlτ h₁ fun hin => ?_)).trans (quiet_step hlτ h₂ fun hin => ?_)
    · rw [place_of_run hp₁] at hin; simp [inWrite] at hin
    · rw [place_of_run hp₂] at hin; simp [inWrite] at hin
  obtain ⟨υ, hqυ, hin⟩ := reader_enters (hr.trans hq.reachable) hlτ free hwτ (.inl hp₂)
  refine ⟨υ, hq.trans hqυ, ?_, hin⟩
  cases hpl : σ.place w₀ <;> simp_all [inWrite, inRead]

theorem blocked_of_lock {t : Tid} {p q : Pc} (hp : σ.phase t = .run p) (hi : code p = .lock q)
    (hs : inStartWrite p = true) (ho : σ.owner ≠ none) : Blocked σ t := by
  refine ⟨by rwa [place_of_run hp], fun τ h => ?_⟩
  have same {p'} (hp' : σ.phase t = .run p') : code p' = .lock q := by
    obtain rfl : p = p' := by simpa [hp] using hp'
    exact hi
  cases h with
  | lock hp' hi' free => exact ho free
  | relock hp' free => exact ho free
  | unlock hp' hi' | wait hp' hi' | signal W hp' hi' | broadcast W hp' hi' | act e hp' hi' =>
      exact absurd ((same hp').symm.trans hi') (by simp)

/-- While one writer writes, a writer counted as waiting keeps all readers back; without
one, every reader in the queue may go first, where the process goes on and `Malloc` can
give a buffer that is large enough. -/
theorem priority_iff_counted [Fintype Tid] (hr : Reachable (machine Tid) (start Tid byte) σ)
    {w₀ : Tid} (hw₀ : inWrite (σ.place w₀) = true) :
    (0 < σ.data.log.waitingWriters → ∀ r, ¬ Overtakes σ r) ∧
      (σ.data.running = true → (logged σ.data.trace).length < 2 ^ 61 →
        ((∀ r, ¬ Overtakes σ r) ↔ 0 < σ.data.log.waitingWriters) ∧
        (σ.data.log.waitingWriters ≤ 0 → ∀ r, inStartRead (σ.place r) = true → Overtakes σ r)) := by
  have holds : 0 < σ.data.log.waitingWriters → ∀ r, ¬ Overtakes σ r := fun hw r =>
    no_overtaking hr hw₀ hw r
  refine ⟨holds, fun live hb => ⟨⟨fun h => ?_, holds⟩, fun hw r => queued_overtakes hr live hb hw₀ hw⟩⟩
  by_contra hw
  exact h w₀ (writer_overtakes hr live hb hw₀ (not_lt.1 hw))

def arriveDuringWrite : List (Fin 3 × Choice) :=
  let go (t : Fin 3) (n : Nat) : List (Fin 3 × Choice) := List.replicate n (t, .junk fun _ => 0)
  let add (t : Fin 3) : Fin 3 × Choice := (t, .addToLog (some [97]) ⟨1, one_fits⟩)
  add 0 :: go 0 6 ++ (1, .getLog) :: add 2 :: go 2 1

theorem arriveDuringWrite_runs :
    ((machine (Fin 3)).replay arriveDuringWrite (start (Fin 3) fun _ => 0)).isSome = true := by
  decide +kernel

def duringWrite : LogState (Fin 3) :=
  ((machine (Fin 3)).replay arriveDuringWrite (start (Fin 3) fun _ => 0)).get arriveDuringWrite_runs

theorem duringWrite_reachable :
    Reachable (machine (Fin 3)) (start (Fin 3) fun _ => 0) duringWrite :=
  replay_reachable (Option.some_get arriveDuringWrite_runs).symm

theorem duringWrite_blocked : Blocked duringWrite 2 :=
  blocked_of_lock (p := .add 2 (.take [97] ⟨1, one_fits⟩) .lock) rfl rfl rfl (by decide +kernel)

theorem duringWrite_writing : inWrite (duringWrite.place 0) = true := by decide +kernel

theorem duringWrite_room : (logged duringWrite.data.trace).length < 2 ^ 61 := by decide +kernel

theorem priority_iff_counted_duringWrite :
    (∀ r, ¬ Overtakes duringWrite r) ↔ 0 < duringWrite.data.log.waitingWriters :=
  ((priority_iff_counted duringWrite_reachable duringWrite_writing).2 (by decide +kernel)
    duringWrite_room).1

/-- Reader 1 gets to read before writer 2 gets to write. -/
theorem writer_priority_fails : ¬ WriterPriority (Fin 3) fun _ => 0 := by
  intro h
  apply h duringWrite duringWrite_reachable 0 2 duringWrite_writing (by decide) duringWrite_blocked 1
  exact queued_overtakes duringWrite_reachable (by decide +kernel) duringWrite_room
    duringWrite_writing (by decide +kernel) (by decide +kernel)

end WebServer.LogPriority
