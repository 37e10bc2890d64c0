import WebServer.MonitorRules

namespace WebServer.Monitor

variable {Tid Cond Pc Data Env : Type} [DecidableEq Tid]

/-- No lost wakeup on a condition: a thread goes to sleep only when `cared` holds
of the data, and whoever ends `cared` is at a program counter in `pledge` until
a signal has passed the duty on to a woken thread that resumes in `heir`. -/
structure WakeRule (M : Machine Tid Cond Pc Data Env) (σ₀ : State Tid Cond Pc Data) (c : Cond)
    (cared : Data → Prop) (heir pledge : Pc → Bool) : Prop where
  sleep : ∀ σ t p q, Reachable M σ₀ σ → σ.phase t = .run p → M.code t p = .wait c q → cared σ.data
  keep : ∀ σ t p q d, Reachable M σ₀ σ → σ.phase t = .run p → (M.code t p).Goes σ.data q d →
    (∃ u, Sleeps σ c u) → (∀ r, M.code t p ≠ .signal c r ∧ M.code t p ≠ .broadcast c r) →
    cared σ.data ∨ pledge p = true → cared d ∨ pledge q = true
  awake : ∀ t p c' q, M.code t p = .wait c' q → pledge p = false
  resume : ∀ q, heir q = true → pledge q = true
  signal : ∀ t p q, M.code t p = .signal c q → ∀ u r s, M.code u r = .wait c s → heir s = true

def Attended (c : Cond) (cared : Data → Prop) (heir pledge : Pc → Bool)
    (σ : State Tid Cond Pc Data) : Prop :=
  (∃ u, Sleeps σ c u) → cared σ.data ∨ (∃ u q, σ.phase u = .woken q ∧ heir q = true) ∨
    ∃ t p, σ.phase t = .run p ∧ pledge p = true

theorem attended_move {M : Machine Tid Cond Pc Data Env} {c : Cond} {cared : Data → Prop}
    {heir pledge : Pc → Bool} {σ₀ σ : State Tid Cond Pc Data}
    (R : WakeRule M σ₀ c cared heir pledge) (hr : Reachable M σ₀ σ)
    (ha : Attended c cared heir pledge σ) {t : Tid} {p q : Pc} (hp : σ.phase t = .run p)
    {d : Data} (hg : (M.code t p).Goes σ.data q d)
    (hs : ∀ r, M.code t p ≠ .signal c r ∧ M.code t p ≠ .broadcast c r)
    (o : Option Tid) (W : Tid → Bool) :
    Attended c cared heir pledge ⟨o, Function.update (wakeSet W σ.phase) t (.run q), d⟩ := by
  rintro ⟨u, r, hu⟩
  have hut : u ≠ t := by rintro rfl; simp at hu
  have hsleep : Sleeps σ c u := ⟨r, (wakeSet_asleep.1 (by simpa [hut] using hu)).2⟩
  have mine (h : cared σ.data ∨ pledge p = true) :
      cared d ∨ (∃ u q', Function.update (wakeSet W σ.phase) t (.run q) u = .woken q' ∧ heir q' = true) ∨
        ∃ u p', Function.update (wakeSet W σ.phase) t (.run q) u = .run p' ∧ pledge p' = true := by
    rcases R.keep σ t p q d hr hp hg ⟨u, hsleep⟩ hs h with h | h
    · exact .inl h
    · exact .inr (.inr ⟨t, q, by simp, h⟩)
  rcases ha ⟨u, hsleep⟩ with h | ⟨v, q', hv, hh⟩ | ⟨v, p', hv, hh⟩
  · exact mine (.inl h)
  · have hvt : v ≠ t := by rintro rfl; simp [hp] at hv
    exact .inr (.inl ⟨v, q', by simpa [hvt] using wakeSet_woken hv, hh⟩)
  · by_cases hvt : v = t
    · subst v
      obtain rfl : p = p' := by simpa [hp] using hv
      exact mine (.inr hh)
    · exact .inr (.inr ⟨v, p', by simpa [hvt] using wakeSet_run.2 hv, hh⟩)

theorem exec_attended {M : Machine Tid Cond Pc Data Env} {c : Cond} {cared : Data → Prop}
    {heir pledge : Pc → Bool} {σ₀ σ τ : State Tid Cond Pc Data} {t : Tid}
    (R : WakeRule M σ₀ c cared heir pledge) (hr : Reachable M σ₀ σ)
    (hres : ∀ t, Resumes M t (σ.phase t)) (ha : Attended c cared heir pledge σ)
    (h : Exec M t σ τ) : Attended c cared heir pledge τ := by
  cases h with
  | lock hp hi free | unlock hp hi =>
      rw [← wakeSet_none σ.phase]
      exact attended_move R hr ha hp (by rw [hi]; exact ⟨rfl, rfl⟩) (by simp [hi]) _ _
  | act e hp hi hf =>
      rw [← wakeSet_none σ.phase]
      exact attended_move R hr ha hp (by rw [hi]; exact ⟨e, hf⟩) (by simp [hi]) _ _
  | relock hp free =>
      rintro ⟨u, r, hu⟩
      have hut : u ≠ t := by rintro rfl; simp at hu
      rcases ha ⟨u, r, by simpa [hut] using hu⟩ with h | ⟨v, q', hv, hh⟩ | ⟨v, p', hv, hh⟩
      · exact .inl h
      · by_cases hvt : v = t
        · subst v
          obtain rfl := by simpa [hp] using hv
          exact .inr (.inr ⟨t, _, by simp, R.resume _ hh⟩)
        · exact .inr (.inl ⟨v, q', by simpa [hvt] using hv, hh⟩)
      · have hvt : v ≠ t := by rintro rfl; simp [hp] at hv
        exact .inr (.inr ⟨v, p', by simpa [hvt] using hv, hh⟩)
  | @wait p q c' hp hi =>
      rintro ⟨u, r, hu⟩
      by_cases hut : u = t
      · subst u
        obtain ⟨rfl, -⟩ : c' = c ∧ _ := by simpa using hu
        exact .inl (R.sleep σ t _ _ hr hp hi)
      · rcases ha ⟨u, r, by simpa [hut] using hu⟩ with h | ⟨v, q', hv, hh⟩ | ⟨v, p', hv, hh⟩
        · exact .inl h
        · have hvt : v ≠ t := by rintro rfl; simp [hp] at hv
          exact .inr (.inl ⟨v, q', by simpa [hvt] using hv, hh⟩)
        · have hvt : v ≠ t := by
            rintro rfl
            obtain rfl : p = p' := by simpa [hp] using hv
            simp [R.awake _ _ _ _ hi] at hh
          exact .inr (.inr ⟨v, p', by simpa [hvt] using hv, hh⟩)
  | @signal p q c' W hp hi hW one =>
      by_cases hc : c' = c
      · subst c'
        rintro ⟨u, r, hu⟩
        have hut : u ≠ t := by rintro rfl; simp at hu
        obtain ⟨v, hv⟩ := one ⟨u, r, (wakeSet_asleep.1 (by simpa [hut] using hu)).2⟩
        obtain ⟨s, hs⟩ := hW v hv
        have hvt : v ≠ t := by rintro rfl; simp [hp] at hs
        have hres := hres v
        rw [hs] at hres
        obtain ⟨r', hr'⟩ := hres
        refine .inr (.inl ⟨v, s, ?_, R.signal t p q hi v r' s hr'⟩)
        simp [hvt, wakeSet, hv, hs, Phase.wake]
      · exact attended_move R hr ha hp (by rw [hi]; exact ⟨rfl, rfl⟩) (by simp [hi, hc]) _ _
  | @broadcast p q c' W hp hi hW =>
      by_cases hc : c' = c
      · subst c'
        rintro ⟨u, r, hu⟩
        have hut : u ≠ t := by rintro rfl; simp at hu
        obtain ⟨hf, hs⟩ := wakeSet_asleep.1 (by simpa [hut] using hu)
        simp [(hW u).2 ⟨r, hs⟩] at hf
      · exact attended_move R hr ha hp (by rw [hi]; exact ⟨rfl, rfl⟩) (by simp [hi, hc]) _ _

theorem WakeRule.reachable {M : Machine Tid Cond Pc Data Env} {c : Cond} {cared : Data → Prop}
    {heir pledge : Pc → Bool} {σ₀ σ : State Tid Cond Pc Data}
    (R : WakeRule M σ₀ c cared heir pledge) (h : Reachable M σ₀ σ) {holds : Pc → Bool}
    (hb : ∀ t p, (M.code t p).Bracketed holds p) (hg : Guarded M holds σ₀)
    (start : ∀ u, ¬ Sleeps σ₀ c u) : Attended c cared heir pledge σ :=
  h.invariant (fun ⟨u, hu⟩ => absurd hu (start u)) fun σ τ hr hi hs => by
    cases hs with
    | exec t live h => exact exec_attended R hr (hr.guarded hb hg).2 hi h
    | spurious u live h =>
        cases h with
        | wake hp =>
            rintro ⟨v, r, hv⟩
            have hvu : v ≠ u := by rintro rfl; simp at hv
            rcases hi ⟨v, r, by simpa [hvu] using hv⟩ with h | ⟨w, q', hw, hh⟩ | ⟨w, p', hw, hh⟩
            · exact .inl h
            · have hwu : w ≠ u := by rintro rfl; simp [hp] at hw
              exact .inr (.inl ⟨w, q', by simpa [hwu] using hw, hh⟩)
            · have hwu : w ≠ u := by rintro rfl; simp [hp] at hw
              exact .inr (.inr ⟨w, p', by simpa [hwu] using hw, hh⟩)

end WebServer.Monitor
