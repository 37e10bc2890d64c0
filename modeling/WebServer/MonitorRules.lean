import WebServer.Monitor

namespace WebServer.Monitor

variable {Tid Cond Pc Data Env : Type} [DecidableEq Tid]

def Instr.Bracketed (holds : Pc → Bool) (p : Pc) : Instr Cond Pc Data Env → Prop
  | .lock q => holds p = false ∧ holds q = true
  | .unlock q => holds p = true ∧ holds q = false
  | .wait _ q => holds p = true ∧ holds q = true
  | .signal _ q | .broadcast _ q => holds q = holds p
  | .act f => ∀ d e d' q, f d e = some (d', q) → holds q = holds p

def Phase.holds (holds : Pc → Bool) : Phase Cond Pc → Bool
  | .run p => holds p
  | .asleep _ _ | .woken _ => false

omit [DecidableEq Tid] in
@[simp] theorem holds_wakeSet (holds : Pc → Bool) (W : Tid → Bool) (phase : Tid → Phase Cond Pc)
    (u : Tid) : (wakeSet W phase u).holds holds = (phase u).holds holds := by
  rw [wakeSet]
  split
  · cases phase u <;> rfl
  · rfl

def Resumes (M : Machine Tid Cond Pc Data Env) (t : Tid) (φ : Phase Cond Pc) : Prop :=
  match φ with
  | .run _ => True
  | .asleep c q => ∃ p, M.code t p = .wait c q
  | .woken q => ∃ c p, M.code t p = .wait c q

/-- The mutex is held by the one thread whose program counter says so. -/
def Guarded (M : Machine Tid Cond Pc Data Env) (holds : Pc → Bool)
    (σ : State Tid Cond Pc Data) : Prop :=
  (∀ t, (σ.phase t).holds holds = true ↔ σ.owner = some t) ∧ ∀ t, Resumes M t (σ.phase t)

omit [DecidableEq Tid] in
theorem resumes_wakeSet {M : Machine Tid Cond Pc Data Env} (W : Tid → Bool)
    {phase : Tid → Phase Cond Pc} {u : Tid} (h : Resumes M u (phase u)) :
    Resumes M u (wakeSet W phase u) := by
  rw [wakeSet]
  split
  · cases hp : phase u with
    | asleep c q => rw [hp] at h; exact ⟨c, h⟩
    | run p | woken q => rw [hp] at h; exact h
  · exact h

theorem guarded_update {M : Machine Tid Cond Pc Data Env} {holds : Pc → Bool}
    {σ : State Tid Cond Pc Data} (h : Guarded M holds σ) (t : Tid) (W : Tid → Bool)
    (φ : Phase Cond Pc) (o : Option Tid) (d : Data) (hφ : Resumes M t φ)
    (hself : φ.holds holds = true ↔ o = some t)
    (hother : ∀ u, u ≠ t → (σ.owner = some u ↔ o = some u)) :
    Guarded M holds ⟨o, Function.update (wakeSet W σ.phase) t φ, d⟩ := by
  constructor <;> intro u <;> by_cases hu : u = t
  · subst u; simpa using hself
  · simpa [hu, h.1 u] using hother u hu
  · subst u; simpa using hφ
  · simpa [hu] using resumes_wakeSet W (h.2 u)

omit [DecidableEq Tid] in
theorem wakeSet_none (phase : Tid → Phase Cond Pc) : wakeSet (fun _ => false) phase = phase := by
  funext u; rfl

omit [DecidableEq Tid] in
theorem bracketed_of {M : Machine Tid Cond Pc Data Env} {holds : Pc → Bool}
    (hb : ∀ t p, (M.code t p).Bracketed holds p) {t : Tid} {p : Pc} {i : Instr Cond Pc Data Env}
    (hi : M.code t p = i) : i.Bracketed holds p :=
  hi ▸ hb t p

theorem exec_guarded {M : Machine Tid Cond Pc Data Env} {holds : Pc → Bool}
    (hb : ∀ t p, (M.code t p).Bracketed holds p) {t : Tid} {σ τ : State Tid Cond Pc Data}
    (h : Exec M t σ τ) (hg : Guarded M holds σ) : Guarded M holds τ := by
  have mine {p} (hp : σ.phase t = .run p) : holds p = true ↔ σ.owner = some t := by
    have := hg.1 t
    rwa [hp] at this
  have other {u} (ho : σ.owner = some t) (hu : u ≠ t) : σ.owner ≠ some u := by
    rw [ho]; simpa using Ne.symm hu
  cases h with
  | lock hp hi free =>
      have hq := bracketed_of hb hi
      rw [← wakeSet_none σ.phase]
      refine guarded_update hg t _ _ _ _ trivial (by simp [Phase.holds, hq.2]) fun u hu => ?_
      simp [free, Ne.symm hu]
  | relock hp free =>
      have hq := hg.2 t
      rw [hp] at hq
      obtain ⟨c, p, hi⟩ := hq
      have hq := bracketed_of hb hi
      rw [← wakeSet_none σ.phase]
      refine guarded_update hg t _ _ _ _ trivial (by simp [Phase.holds, hq.2]) fun u hu => ?_
      simp [free, Ne.symm hu]
  | unlock hp hi =>
      have hq := bracketed_of hb hi
      rw [← wakeSet_none σ.phase]
      refine guarded_update hg t _ _ _ _ trivial (by simp [Phase.holds, hq.2]) fun u hu => ?_
      simpa using other ((mine hp).1 hq.1) hu
  | wait hp hi =>
      have hq := bracketed_of hb hi
      rw [← wakeSet_none σ.phase]
      refine guarded_update hg t _ _ _ _ ⟨_, hi⟩ (by simp [Phase.holds]) fun u hu => ?_
      simpa using other ((mine hp).1 hq.1) hu
  | signal W hp hi hW one | broadcast W hp hi hW =>
      have hq := bracketed_of hb hi
      refine guarded_update hg t W _ _ _ trivial ?_ fun u hu => Iff.rfl
      rw [← mine hp, ← show holds _ = holds _ from hq]
      rfl
  | act e hp hi hf =>
      have hq := bracketed_of hb hi
      rw [← wakeSet_none σ.phase]
      refine guarded_update hg t _ _ _ _ trivial ?_ fun u hu => Iff.rfl
      rw [← mine hp, ← hq _ _ _ _ hf]
      rfl

theorem spurious_guarded {M : Machine Tid Cond Pc Data Env} {holds : Pc → Bool} {t : Tid}
    {σ τ : State Tid Cond Pc Data} (h : Spurious t σ τ) (hg : Guarded M holds σ) :
    Guarded M holds τ := by
  cases h with
  | wake hp =>
      have hr := hg.2 t
      have ho := hg.1 t
      rw [hp] at hr ho
      rw [← wakeSet_none σ.phase]
      exact guarded_update hg t _ _ _ _ ⟨_, hr⟩ ho fun u _ => Iff.rfl

theorem Reachable.guarded {M : Machine Tid Cond Pc Data Env} {holds : Pc → Bool}
    {σ₀ σ : State Tid Cond Pc Data} (h : Reachable M σ₀ σ)
    (hb : ∀ t p, (M.code t p).Bracketed holds p) (start : Guarded M holds σ₀) :
    Guarded M holds σ :=
  h.invariant start fun _ _ _ hi hs => by
    cases hs with
    | exec t live h => exact exec_guarded hb h hi
    | spurious u live h => exact spurious_guarded h hi

omit [DecidableEq Tid] in
theorem wakeSet_woken {W : Tid → Bool} {phase : Tid → Phase Cond Pc} {u : Tid} {q : Pc}
    (h : phase u = .woken q) : wakeSet W phase u = .woken q := by
  rw [wakeSet]
  split <;> simp [h, Phase.wake]

omit [DecidableEq Tid] in
theorem wakeSet_run {W : Tid → Bool} {phase : Tid → Phase Cond Pc} {u : Tid} {p : Pc} :
    wakeSet W phase u = .run p ↔ phase u = .run p := by
  rw [wakeSet]
  split
  · cases hu : phase u <;> simp [Phase.wake]
  · rfl

omit [DecidableEq Tid] in
theorem wakeSet_asleep {W : Tid → Bool} {phase : Tid → Phase Cond Pc} {u : Tid} {c : Cond} {p : Pc} :
    wakeSet W phase u = .asleep c p ↔ W u = false ∧ phase u = .asleep c p := by
  rw [wakeSet]
  split
  · cases hu : phase u <;> simp_all [Phase.wake]
  · simp_all

theorem exec_others {M : Machine Tid Cond Pc Data Env} {t u : Tid} {σ τ : State Tid Cond Pc Data}
    {p : Pc} (h : Exec M t σ τ) (hu : u ≠ t) (hp : σ.phase u = .run p) : τ.phase u = .run p := by
  cases h with
  | lock | relock | unlock | wait | act => exact (Function.update_of_ne hu _ _).trans hp
  | signal W | broadcast W => exact (Function.update_of_ne hu _ _).trans (wakeSet_run.2 hp)

theorem spurious_others {t u : Tid} {σ τ : State Tid Cond Pc Data} {p : Pc} (h : Spurious t σ τ)
    (hp : σ.phase u = .run p) : τ.phase u = .run p := by
  cases h with
  | wake hasleep =>
      have hu : u ≠ t := by
        rintro rfl
        cases hp.symm.trans hasleep
      exact (Function.update_of_ne hu _ _).trans hp

/-- What a proof outline asks of one instruction: `J` holds of the data while
the mutex is free, `A p` while a thread is at a place `p` that holds it. `B` is
what is known from elsewhere of the data while the thread is at `p`. -/
def Instr.Verified (holds : Pc → Bool) (B : Pc → Data → Prop) (J : Data → Prop)
    (A : Pc → Data → Prop) (p : Pc) : Instr Cond Pc Data Env → Prop
  | .lock q => ∀ d, B p d → J d → A q d
  | .unlock _ => ∀ d, B p d → A p d → J d
  | .wait _ q => ∀ d, (B p d → A p d → J d) ∧ (B q d → J d → A q d)
  | .signal _ q | .broadcast _ q => holds p = true → ∀ d, B p d → A p d → A q d
  | .act f => ∀ d e d' q, f d e = some (d', q) → B p d → if holds p then A p d → A q d'
      else (J d → J d') ∧ ∀ r, A r d → A r d'

structure Outline (M : Machine Tid Cond Pc Data Env) (holds : Pc → Bool) (B : Pc → Data → Prop)
    (J : Data → Prop) (A : Pc → Data → Prop) : Prop where
  bracketed : ∀ t p, (M.code t p).Bracketed holds p
  verified : ∀ t p, (M.code t p).Verified holds B J A p

def Annotated (holds : Pc → Bool) (J : Data → Prop) (A : Pc → Data → Prop)
    (σ : State Tid Cond Pc Data) : Prop :=
  (σ.owner = none → J σ.data) ∧ ∀ t p, σ.phase t = .run p → holds p = true → A p σ.data

omit [DecidableEq Tid] in
theorem Outline.of {M : Machine Tid Cond Pc Data Env} {holds : Pc → Bool} {B : Pc → Data → Prop}
    {J : Data → Prop} {A : Pc → Data → Prop} (O : Outline M holds B J A) {t : Tid} {p : Pc}
    {i : Instr Cond Pc Data Env} (hi : M.code t p = i) :
    i.Bracketed holds p ∧ i.Verified holds B J A p :=
  ⟨hi ▸ O.bracketed t p, hi ▸ O.verified t p⟩

theorem exec_annotated {M : Machine Tid Cond Pc Data Env} {holds : Pc → Bool}
    {B : Pc → Data → Prop} {J : Data → Prop} {A : Pc → Data → Prop} (O : Outline M holds B J A)
    {t : Tid} {σ τ : State Tid Cond Pc Data} (h : Exec M t σ τ) (hg : Guarded M holds σ)
    (hB : B (σ.place t) σ.data) (ha : Annotated holds J A σ) : Annotated holds J A τ := by
  have hg' := exec_guarded O.bracketed h hg
  have owns {u p} (hp : τ.phase u = .run p) (hh : holds p = true) : τ.owner = some u :=
    (hg'.1 u).1 (by rw [hp]; exact hh)
  have known {φ} (hp : σ.phase t = φ) : B φ.place σ.data := hp ▸ hB
  cases h with
  | lock hp hi free =>
      refine ⟨by simp, fun u p hu hh => ?_⟩
      obtain rfl : t = u := by simpa using owns hu hh
      obtain rfl := by simpa using hu
      exact (O.of hi).2 _ (known hp) (ha.1 free)
  | relock hp free =>
      refine ⟨by simp, fun u p hu hh => ?_⟩
      obtain rfl : t = u := by simpa using owns hu hh
      obtain rfl := by simpa using hu
      have hr := hg.2 t
      rw [hp] at hr
      obtain ⟨c, p, hi⟩ := hr
      exact ((O.of hi).2 _).2 (known hp) (ha.1 free)
  | unlock hp hi =>
      obtain ⟨hb, hv⟩ := O.of hi
      exact ⟨fun _ => hv _ (known hp) (ha.2 _ _ hp hb.1), fun u p hu hh => by simpa using owns hu hh⟩
  | wait hp hi =>
      obtain ⟨hb, hv⟩ := O.of hi
      refine ⟨fun _ => (hv _).1 (known hp) (ha.2 _ _ hp hb.1), fun u p hu hh => ?_⟩
      simpa using owns hu hh
  | signal W hp hi hW one | broadcast W hp hi hW =>
      refine ⟨ha.1, fun u p hu hh => ?_⟩
      by_cases hut : u = t
      · subst u
        obtain rfl := by simpa using hu
        obtain ⟨hb, hv⟩ := O.of hi
        have hb : holds _ = holds _ := hb
        exact hv (hb ▸ hh) _ (known hp) (ha.2 _ _ hp (hb ▸ hh))
      · refine ha.2 u p ?_ hh
        exact wakeSet_run.1 (by simpa [hut] using hu)
  | act e hp hi hf =>
      obtain ⟨hb, hv⟩ := O.of hi
      have hb := hb _ _ _ _ hf
      have hv := hv _ _ _ _ hf (known hp)
      split at hv
      · next hh =>
        have ht := (hg.1 t).1 (by rw [hp]; exact hh)
        refine ⟨fun hn => by simp [ht] at hn, fun u p hu hh' => ?_⟩
        obtain rfl : t = u := by simpa [ht] using owns hu hh'
        obtain rfl := by simpa using hu
        exact hv (ha.2 _ _ hp hh)
      · next hh =>
        refine ⟨fun hn => hv.1 (ha.1 hn), fun u p hu hh' => ?_⟩
        by_cases hut : u = t
        · subst u
          obtain rfl := by simpa using hu
          exact absurd (hb ▸ hh') hh
        · exact hv.2 p (ha.2 u p (by simpa [hut] using hu) hh')

theorem step_annotated {M : Machine Tid Cond Pc Data Env} {holds : Pc → Bool}
    {B : Pc → Data → Prop} {J : Data → Prop} {A : Pc → Data → Prop} (O : Outline M holds B J A)
    {σ τ : State Tid Cond Pc Data} (h : Step M σ τ) (hg : Guarded M holds σ)
    (hB : ∀ t, B (σ.place t) σ.data) (ha : Annotated holds J A σ) : Annotated holds J A τ := by
  cases h with
  | exec t live h => exact exec_annotated O h hg (hB t) ha
  | spurious u live h =>
      cases h with
      | wake hp =>
          refine ⟨ha.1, fun t p ht hh => ha.2 t p ?_ hh⟩
          by_cases htu : t = u
          · subst t; simp at ht
          · simpa [htu] using ht

/-- Every critical section is verified alone: the outline holds at every
reachable state, for any number of threads and any order of steps. -/
theorem Outline.reachable {M : Machine Tid Cond Pc Data Env} {holds : Pc → Bool}
    {B : Pc → Data → Prop} {J : Data → Prop} {A : Pc → Data → Prop} (O : Outline M holds B J A)
    {σ₀ σ : State Tid Cond Pc Data} (h : Reachable M σ₀ σ) (hg : Guarded M holds σ₀)
    (hB : ∀ σ, Reachable M σ₀ σ → ∀ t, B (σ.place t) σ.data) (ha : Annotated holds J A σ₀) :
    Annotated holds J A σ :=
  h.invariant ha fun σ _ hr hi hs => step_annotated O hs (hr.guarded O.bracketed hg) (hB σ hr) hi

theorem Reachable.stable {M : Machine Tid Cond Pc Data Env} {σ₀ σ : State Tid Cond Pc Data}
    {A : Tid → Pc → Data → Prop} (h : Reachable M σ₀ σ) (start : ∀ t, A t (σ₀.place t) σ₀.data)
    (own : ∀ t p d q d', A t p d → (M.code t p).Goes d q d' → A t q d')
    (others : ∀ t p d q d' u r, u ≠ t → A t p d → A u r d → (M.code t p).Goes d q d' → A u r d')
    (t : Tid) : A t (σ.place t) σ.data := by
  refine h.place_invariant (I := fun f d => ∀ t, A t (f t) d) start ?_ t
  intro f d t q d' hi hg u
  by_cases hu : u = t
  · subst u
    rw [Function.update_self]
    exact own t _ d q d' (hi t) hg
  · rw [Function.update_of_ne hu]
    exact others t _ d q d' u _ hu (hi t) (hi u) hg

def Phase.GoesOn (B : Pc → Prop) : Phase Cond Pc → Prop
  | .run _ => True
  | .asleep _ q | .woken q => B q

omit [DecidableEq Tid] in
theorem goesOn_wakeSet {B : Pc → Prop} (W : Tid → Bool) {phase : Tid → Phase Cond Pc} {u : Tid}
    (h : (phase u).GoesOn B) : (wakeSet W phase u).GoesOn B := by
  rw [wakeSet]
  split
  · cases hp : phase u <;> rw [hp] at h <;> exact h
  · exact h

theorem Reachable.goesOn {M : Machine Tid Cond Pc Data Env} {σ₀ σ : State Tid Cond Pc Data}
    {B : Pc → Prop} {t : Tid} (h : Reachable M σ₀ σ) (start : (σ₀.phase t).GoesOn B)
    (waits : ∀ τ p c q, Reachable M σ₀ τ → τ.phase t = .run p → M.code t p = .wait c q → B q) :
    (σ.phase t).GoesOn B := by
  have moved {phase : Tid → Phase Cond Pc} {u : Tid} {φ : Phase Cond Pc} (hφ : u = t → φ.GoesOn B)
      (h : (phase t).GoesOn B) : (Function.update phase u φ t).GoesOn B := by
    by_cases hu : t = u
    · subst u
      rw [Function.update_self]
      exact hφ rfl
    · rwa [Function.update_of_ne hu]
  refine h.invariant (I := fun τ => (τ.phase t).GoesOn B) start fun τ υ hr hi hs => ?_
  cases hs with
  | exec u live hx =>
      cases hx with
      | wait hp hc =>
          refine moved (fun hu => ?_) hi
          subst u
          exact waits _ _ _ _ hr hp hc
      | signal W hp hc hW one | broadcast W hp hc hW =>
          exact moved (fun _ => trivial) (goesOn_wakeSet W hi)
      | lock | relock | unlock | act => exact moved (fun _ => trivial) hi
  | spurious u live hx =>
      cases hx with
      | wake hp =>
          refine moved (fun hu => ?_) hi
          subst u
          rw [hp] at hi
          exact hi

end WebServer.Monitor
