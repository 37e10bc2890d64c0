import WebServer.QueueRefinement
import WebServer.Restriction
import WebServer.Wakeups

namespace WebServer.QueueWakeups

open Monitor RequestQueue RingBuffer QueueRefinement

variable {n cap : Nat} {Script : Type} {handle : Handler Script} {junk : Nat → Request}
  {σ τ : QueueState n}

def ofMain : Pc → Bool
  | .main _ => true
  | .worker _ _ => false

theorem goes_role {t : Tid n} {p q : Pc} {d d' : Shared n} (h : (code handle t p).Goes d q d') :
    ofMain q = ofMain p := by
  cases goes_edge h <;> rfl

theorem role (h : Reachable (machine n handle) (start n junk cap) σ) (t : Tid n) :
    ofMain (σ.place t) = true ↔ t = .main := by
  refine h.place_invariant (I := fun f _ => ∀ t, ofMain (f t) = true ↔ t = .main) ?_ ?_ t
  · intro t
    cases t <;> simp [start_place, startPc, ofMain]
  · intro f d t q d' hi hg u
    by_cases hu : u = t
    · subst u
      rw [Function.update_self, goes_role hg]
      exact hi t
    · rw [Function.update_of_ne hu]
      exact hi u

theorem sleeper_place (h : Reachable (machine n handle) (start n junk cap) σ) {c : QueueCond}
    {t : Tid n} (ht : Sleeps σ c t) :
    (c = .notFull ∧ t = .main ∧
      ((∃ k, σ.place t = .main (.check k)) ∨ ∃ r, σ.place t = .main (.enqueue r .check))) ∨
    c = .notEmpty ∧ ∃ stats, σ.phase t = .asleep .notEmpty (.worker stats (.dequeue .check)) := by
  obtain ⟨q, hq⟩ := ht
  have hres := (guarded h).2 t
  rw [hq] at hres
  obtain ⟨p, hp⟩ := hres
  have hpl : σ.place t = q := by rw [State.place, hq]; rfl
  rcases code_wait hp with ⟨rfl, k, -, rfl⟩ | ⟨rfl, r, -, rfl⟩ | ⟨rfl, stats, -, rfl⟩
  · exact .inl ⟨rfl, (role h t).1 (by rw [hpl]; rfl), .inl ⟨k, hpl⟩⟩
  · exact .inl ⟨rfl, (role h t).1 (by rw [hpl]; rfl), .inr ⟨r, hpl⟩⟩
  · exact .inr ⟨rfl, stats, hq⟩

/-- A worker inside `dequeue` that will look at the queue again, or has looked
and is taking a request out; or the main thread, about to signal. -/
def covers : Phase QueueCond Pc → Bool
  | .run (.worker _ (.dequeue s)) => match s with
    | .lock | .check | .read | .front _ | .decrement _ => true
    | _ => false
  | .run (.main (.enqueue _ .signal)) => true
  | .woken (.worker _ (.dequeue .check)) => true
  | _ => false

theorem goes_covers {t : Tid n} {p q : Pc} {d d' : Shared n} (h : (code handle t p).Goes d q d')
    (hs : ∀ r, code handle t p ≠ .signal .notEmpty r) :
    d'.queue.dequeueingSize + (if covers (.run p) then 1 else 0) ≤
      d.queue.dequeueingSize + (if covers (.run q) then 1 else 0) ∨ d'.queue.dequeueingSize = 0 := by
  cases goes_edge h with
  | enqueueSignalled r => exact absurd rfl (hs _)
  | nonePending stats none => exact .inr none
  | _ => left; simp [covers]

/-- While a worker sleeps, every pending request has a worker that is awake for
it. -/
def Covered (σ : QueueState n) : Prop :=
  (∃ t, Sleeps σ .notEmpty t) → σ.data.queue.dequeueingSize ≤ countIn covers σ.phase

theorem covers_wake {φ : Phase QueueCond Pc} (h : covers φ = true) : covers φ.wake = true := by
  cases φ with
  | asleep c q => simp [covers] at h
  | run p | woken q => exact h

theorem covers_wakeSet {W : Tid n → Bool} {phase : Tid n → Phase QueueCond Pc} {t : Tid n}
    (h : covers (phase t) = true) : covers (wakeSet W phase t) = true := by
  rw [wakeSet]
  split
  · exact covers_wake h
  · exact h

theorem covered_move {t : Tid n} {p q : Pc} {d : Shared n} (hp : σ.phase t = .run p)
    (hg : (code handle t p).Goes σ.data q d) (hs : ∀ r, code handle t p ≠ .signal .notEmpty r)
    (hc : Covered σ) (o : Option (Tid n)) (W : Tid n → Bool) :
    Covered ⟨o, Function.update (wakeSet W σ.phase) t (.run q), d⟩ := by
  rintro ⟨u, r, hu⟩
  have hut : u ≠ t := by rintro rfl; simp at hu
  have hc := hc ⟨u, r, (wakeSet_asleep.1 (by simpa [hut] using hu)).2⟩
  have hcount := countIn_update covers (wakeSet W σ.phase) t (.run q)
  have hmono : countIn covers σ.phase ≤ countIn covers (wakeSet W σ.phase) :=
    countIn_mono fun v hv => covers_wakeSet hv
  rw [wakeSet_run.2 hp] at hcount
  rcases goes_covers hg hs with h | h
  · simp only
    omega
  · simp only [h]
    omega

theorem exec_covered (hr : Reachable (machine n handle) (start n junk cap) σ)
    {t : Tid n} (h : Exec (machine n handle) t σ τ)
    (hwait : ∀ stats, σ.phase t = .run (.worker stats (.dequeue .wait)) →
      σ.data.queue.dequeueingSize = 0) (hc : Covered σ) : Covered τ := by
  cases h with
  | lock hp hi free | unlock hp hi =>
      rw [← wakeSet_none σ.phase]
      exact covered_move hp (by rw [show code handle t _ = _ from hi]; exact ⟨rfl, rfl⟩)
        (by simp [show code handle t _ = _ from hi]) hc _ _
  | act e hp hi hf =>
      rw [← wakeSet_none σ.phase]
      exact covered_move hp (by rw [show code handle t _ = _ from hi]; exact ⟨e, hf⟩)
        (by simp [show code handle t _ = _ from hi]) hc _ _
  | broadcast W hp hi hW =>
      exact covered_move hp (by rw [show code handle t _ = _ from hi]; exact ⟨rfl, rfl⟩)
        (by simp [show code handle t _ = _ from hi]) hc _ W
  | @relock q hp free =>
      rintro ⟨u, r, hu⟩
      have hut : u ≠ t := by rintro rfl; simp at hu
      have hc := hc ⟨u, r, by simpa [hut] using hu⟩
      have hcount := countIn_update covers σ.phase t (.run q)
      have heq : covers (.run q) = covers (σ.phase t) := by
        rw [hp]
        rcases waiter_place hr (.inr hp) with ⟨k, rfl⟩ | ⟨r, rfl⟩ | ⟨stats, rfl⟩ <;> rfl
      simp only [heq] at hcount ⊢
      omega
  | @wait p q c hp hi =>
      rintro ⟨u, r, hu⟩
      have hcount := countIn_update covers σ.phase t (.asleep c q)
      by_cases hut : u = t
      · subst u
        obtain ⟨rfl, rfl⟩ : c = .notEmpty ∧ q = r := by simpa using hu
        rcases code_wait hi with ⟨h, -⟩ | ⟨h, -⟩ | ⟨-, stats, rfl, -⟩
        · simp at h
        · simp at h
        · simp only [hwait stats hp]
          omega
      · have hc := hc ⟨u, r, by simpa [hut] using hu⟩
        have hz : covers (σ.phase t) = false := by
          rw [hp]
          rcases code_wait hi with ⟨-, k, rfl, -⟩ | ⟨-, r, rfl, -⟩ | ⟨-, stats, rfl, -⟩ <;> rfl
        rw [hz, show covers (.asleep c q) = false from rfl] at hcount
        simp only [Bool.false_eq_true, if_false] at hcount ⊢
        omega
  | @signal p q c W hp hi hW one =>
      cases c with
      | notFull =>
          exact covered_move hp (by rw [show code handle t _ = _ from hi]; exact ⟨rfl, rfl⟩)
            (by simp [show code handle t _ = _ from hi]) hc _ W
      | notEmpty =>
          rintro ⟨u, r, hu⟩
          have hut : u ≠ t := by rintro rfl; simp at hu
          have hsl : Sleeps σ .notEmpty u := ⟨r, (wakeSet_asleep.1 (by simpa [hut] using hu)).2⟩
          have hc := hc ⟨u, hsl⟩
          obtain ⟨v, hv⟩ := one ⟨u, hsl⟩
          -- the sleeper that is woken takes over from the main thread
          have hlt : countIn covers σ.phase < countIn covers (wakeSet W σ.phase) := by
            rcases sleeper_place hr (hW v hv) with ⟨h, -⟩ | ⟨-, stats, hv'⟩
            · simp at h
            · exact countIn_lt (fun w hw => covers_wakeSet hw) (by rw [hv']; rfl)
                (by rw [wakeSet, if_pos hv, hv']; rfl)
          have hcount := countIn_update covers (wakeSet W σ.phase) t (.run q)
          rw [wakeSet_run.2 hp] at hcount
          simp only
          split at hcount <;> split at hcount <;> omega

theorem covered_reachable (hcap : 1 ≤ cap) (h : Reachable (machine n handle) (start n junk cap) σ) :
    Covered σ := by
  apply h.invariant (fun ⟨t, q, ht⟩ => by simp [start] at ht)
  intro σ τ hr hc hs
  cases hs with
  | exec t live h =>
      exact exec_covered hr h (fun stats hp => ((annotated hcap hr).2 t _ hp rfl).2) hc
  | spurious u live h =>
      cases h with
      | @wake c p hp =>
          rintro ⟨v, r, hv⟩
          have hvu : v ≠ u := by rintro rfl; simp at hv
          have hc := hc ⟨v, r, by simpa [hvu] using hv⟩
          have hmono : countIn covers σ.phase ≤
              countIn covers (Function.update σ.phase u (.woken p)) := by
            apply countIn_mono
            intro w hw
            by_cases hwu : w = u
            · subst w; simp [hp, covers] at hw
            · rwa [Function.update_of_ne hwu]
          simp only
          omega

def contending : Phase QueueCond Pc → Bool
  | .run (.worker _ (.dequeue .lock)) => true
  | .woken (.worker _ (.dequeue .check)) => true
  | _ => false

theorem not_holds_free (h : Reachable (machine n handle) (start n junk cap) σ)
    (free : σ.owner = none) {t : Tid n} {p : Pc} (hp : σ.phase t = .run p) : holds p = false := by
  by_contra hh
  rw [Bool.not_eq_false] at hh
  have ho := ((guarded h).1 t).1 (by rw [hp]; exact hh)
  simp [free] at ho

theorem covers_free (h : Reachable (machine n handle) (start n junk cap) σ) (free : σ.owner = none)
    (t : Tid n) : covers (σ.phase t) = contending (σ.phase t) := by
  cases hφ : σ.phase t with
  | run p =>
      have hp := not_holds_free h free hφ
      cases p with
      | main p =>
          cases p with
          | enqueue r s => cases s <;> simp_all [holds, MainPc.holds, covers, contending]
          | _ => rfl
      | worker stats p =>
          cases p with
          | dequeue s => cases s <;> simp_all [holds, WorkerPc.holds, covers, contending]
          | _ => rfl
  | asleep c q => rfl
  | woken q =>
      rcases waiter_place h (.inr hφ) with ⟨k, rfl⟩ | ⟨r, rfl⟩ | ⟨stats, rfl⟩ <;> rfl

theorem pending_covered (hcap : 1 ≤ cap) (h : Reachable (machine n handle) (start n junk cap) σ)
    (free : σ.owner = none) (hs : ∃ t, Sleeps σ .notEmpty t) :
    σ.data.queue.dequeueingSize ≤ countIn contending σ.phase := by
  have hc := covered_reachable hcap h hs
  rwa [countIn_congr (covers_free h free)] at hc

def full (cap : Nat) (d : Shared n) : Prop := d.queue.size = cap

def tellsMain : Pc → Bool
  | .main (.check _) | .main (.enqueue _ .check) | .worker _ (.finish .signal) => true
  | _ => false

theorem worker_size {t : Tid n} {stats : ThreadsStats} {p : WorkerPc} {q : Pc} {d d' : Shared n}
    (h : (code handle t (.worker stats p)).Goes d q d') :
    d'.queue.size = d.queue.size ∨ q = .worker stats (.finish .signal) := by
  cases goes_edge h with
  | finished => exact .inr rfl
  | _ => exact .inl rfl

theorem room_rule (hcap : 1 ≤ cap) (handle : Handler Script) (junk : Nat → Request) :
    WakeRule (machine n handle) (start n junk cap) .notFull (full cap)
      (fun q => ofMain q && tellsMain q) tellsMain where
  sleep σ t p q hr hp hi := by
    have ha := (annotated hcap hr).2 t p hp
    rcases code_wait hi with ⟨-, k, rfl, -⟩ | ⟨-, r, rfl, -⟩ | ⟨h, -⟩
    · exact (ha rfl).2
    · exact (ha rfl).2
    · simp at h
  keep σ t p q d hr hp hg hs hn h := by
    obtain ⟨u, hu⟩ := hs
    have hmain : t ≠ .main := by
      rintro rfl
      obtain ⟨r, hr'⟩ := hu
      rcases sleeper_place hr ⟨r, hr'⟩ with ⟨-, rfl, -⟩ | ⟨h, -⟩
      · simp [hp] at hr'
      · simp at h
    cases p with
    | main p => exact absurd ((role hr t).1 (by rw [place_of_run hp]; rfl)) hmain
    | worker stats p =>
        rcases worker_size hg with hsz | rfl
        · rcases h with h | h
          · exact .inl (hsz.trans h)
          · cases p with
            | finish s =>
                cases s with
                | signal => exact absurd rfl (hn _).1
                | _ => simp [tellsMain] at h
            | _ => simp [tellsMain] at h
        · exact .inr rfl
  awake t p c q hi := by
    rcases code_wait hi with ⟨-, k, rfl, -⟩ | ⟨-, r, rfl, -⟩ | ⟨-, stats, rfl, -⟩ <;> rfl
  resume q hq := by simp_all
  signal t p q hi u r s hs := by
    rcases code_wait hs with ⟨-, k, -, rfl⟩ | ⟨-, r, -, rfl⟩ | ⟨h, -⟩
    · rfl
    · rfl
    · simp at h

theorem sleeping_main (hcap : 1 ≤ cap) (h : Reachable (machine n handle) (start n junk cap) σ)
    (free : σ.owner = none) {t : Tid n} (ht : Sleeps σ .notFull t) : σ.data.queue.size = cap := by
  have ha := (room_rule hcap handle junk).reachable h code_bracketed start_guarded
    (fun u ⟨q, hq⟩ => by simp [start] at hq)
  obtain ⟨r, hr⟩ := ht
  have hmain : t = .main := by
    rcases sleeper_place h ⟨r, hr⟩ with ⟨-, ht, -⟩ | ⟨h, -⟩
    · exact ht
    · simp at h
  rcases ha ⟨t, r, hr⟩ with hf | ⟨u, q, hu, hq⟩ | ⟨u, p, hp, ho⟩
  · exact hf
  · have hpl : σ.place u = q := by rw [State.place, hu]; rfl
    have hut : u = .main := (role h u).1 (by rw [hpl]; simp_all)
    rw [hut, ← hmain, hr] at hu
    simp at hu
  · have hn := not_holds_free h free hp
    cases p with
    | main p =>
        have hut : u = .main := (role h u).1 (by rw [place_of_run hp]; rfl)
        rw [hut, ← hmain, hr] at hp
        simp at hp
    | worker stats p =>
        cases p with
        | finish s => cases s <;> simp_all [tellsMain, holds, WorkerPc.holds]
        | _ => simp [tellsMain] at ho

/-- Some thread can step, other than by accepting a new connection. -/
def Moves (handle : Handler Script) (σ : QueueState n) : Prop :=
  ∃ t τ, σ.place t ≠ .main .accept ∧ Exec (machine n handle) t σ τ

def waitsForRoom : Pc → Bool
  | .main p => match p with
    | .check _ | .wait _ => true
    | .enqueue _ s => match s with
      | .check | .wait => true
      | _ => false
    | _ => false
  | .worker _ _ => false

def Returns (handle : Handler Script) : Prop :=
  ∀ connfd arrival dispatch stats, ∃ s stats', handle connfd arrival dispatch stats s =
    some (.returned stats')

/-- Some thread can step so, and no call that it makes fails. -/
def Proceeds (handle : Handler Script) (σ : QueueState n) : Prop :=
  ∃ t τ, σ.place t ≠ .main .accept ∧ Exec ((machine n handle).restrict Choice.works) t σ τ

theorem Proceeds.moves (h : Proceeds handle σ) : Moves handle σ := by
  obtain ⟨t, τ, hne, hτ⟩ := h
  exact ⟨t, τ, hne, exec_restrict hτ⟩

theorem stmt_ready (f : Shared n → Shared n × Pc) :
    ((stmt f : QueueInstr n Script).restrict Choice.works).Ready σ :=
  ⟨.ok, _, _, rfl⟩

theorem ready (hret : Returns handle) {t : Tid n} {p : Pc} (hne : p ≠ .main .accept)
    (hlock : holds p = true ∨ σ.owner = none) : ((code handle t p).restrict Choice.works).Ready σ := by
  have free (h : holds p = false) : σ.owner = none := hlock.resolve_left (by simp [h])
  cases p with
  | main p =>
      cases p with
      | accept => exact absurd rfl hne
      | lock c => exact free rfl
      | stamp c => exact ⟨.time ⟨0, 0⟩, _, _, rfl⟩
      | check c => exact stmt_ready _
      | wait | unlock => trivial
      | enqueue r s =>
          cases s with
          | lock => exact free rfl
          | wait | signal | unlock => trivial
          | _ => exact stmt_ready _
  | worker stats p =>
      cases p with
      | dequeue s =>
          cases s with
          | lock => exact free rfl
          | wait | unlock => trivial
          | time req => exact ⟨.time ⟨0, 0⟩, _, _, rfl⟩
          | _ => exact stmt_ready _
      | finish s =>
          cases s with
          | lock => exact free rfl
          | signal | unlock => trivial
          | size => exact stmt_ready _
      | timersub req now => exact stmt_ready _
      | handle req dispatch =>
          obtain ⟨s, stats', hs⟩ := hret req.connfd req.arrivalTime dispatch stats
          exact ⟨.script s, { σ.data with trace := σ.data.trace ++ [.returned t req] },
            .worker stats' (.close req), by simp [hs, Choice.works]⟩
      | close req => exact ⟨.ok, _, _, rfl⟩

theorem moves_of_run (hret : Returns handle) {t : Tid n} {p : Pc} (hp : σ.phase t = .run p)
    (hne : p ≠ .main .accept) (hlock : holds p = true ∨ σ.owner = none) : Proceeds handle σ := by
  obtain ⟨τ, hτ⟩ := exec_exists (M := (machine n handle).restrict Choice.works) hp (ready hret hne hlock)
  exact ⟨t, τ, by rwa [place_of_run hp], hτ⟩

theorem moves_of_woken (h : Reachable (machine n handle) (start n junk cap) σ)
    (free : σ.owner = none) {t : Tid n} {q : Pc} (hq : σ.phase t = .woken q) : Proceeds handle σ := by
  refine ⟨t, _, ?_, .relock hq free⟩
  have hpl : σ.place t = q := by rw [State.place, hq]; rfl
  rw [hpl]
  rcases waiter_place h (.inr hq) with ⟨k, rfl⟩ | ⟨r, rfl⟩ | ⟨stats, rfl⟩ <;> simp

theorem moves_of_contending (h : Reachable (machine n handle) (start n junk cap) σ)
    (hret : Returns handle) (free : σ.owner = none) {t : Tid n}
    (ht : contending (σ.phase t) = true) : Proceeds handle σ := by
  cases hφ : σ.phase t with
  | run p =>
      refine moves_of_run hret hφ ?_ (.inr free)
      rintro rfl
      simp [hφ, contending] at ht
  | asleep c q => simp [hφ, contending] at ht
  | woken q => exact moves_of_woken h free hφ

theorem worker_moves (h : Reachable (machine n handle) (start n junk cap) σ) (hret : Returns handle)
    (free : σ.owner = none) (i : Fin n) : Proceeds handle σ ∨ Sleeps σ .notEmpty (.worker i) := by
  cases hφ : σ.phase (.worker i) with
  | run p =>
      refine .inl (moves_of_run hret hφ ?_ (.inr free))
      rintro rfl
      have hm := (role h (.worker i)).1 (by rw [place_of_run hφ]; rfl)
      simp at hm
  | asleep c q =>
      rcases sleeper_place h ⟨q, hφ⟩ with ⟨-, hm, -⟩ | ⟨rfl, -⟩
      · simp at hm
      · exact .inr ⟨q, hφ⟩
  | woken q => exact .inl (moves_of_woken h free hφ)

theorem moves_of_pending (hcap : 1 ≤ cap) (hn : 1 ≤ n)
    (h : Reachable (machine n handle) (start n junk cap) σ) (hret : Returns handle)
    (free : σ.owner = none) (hd : 0 < σ.data.queue.dequeueingSize) : Proceeds handle σ := by
  rcases worker_moves h hret free ⟨0, hn⟩ with hm | hs
  · exact hm
  · have hc := pending_covered hcap h free ⟨_, hs⟩
    obtain ⟨t, ht⟩ := countIn_pos.1 (show 0 < countIn contending σ.phase by omega)
    exact moves_of_contending h hret free ht

theorem moves_of_waiting (hcap : 1 ≤ cap) (hn : 1 ≤ n)
    (h : Reachable (machine n handle) (start n junk cap) σ) (hret : Returns handle)
    (free : σ.owner = none) (hw : waitsForRoom (σ.place .main) = true) : Proceeds handle σ := by
  cases hφ : σ.phase (.main : Tid n) with
  | run p =>
      refine moves_of_run hret hφ ?_ (.inr free)
      rintro rfl
      simp [place_of_run hφ, waitsForRoom] at hw
  | woken q => exact moves_of_woken h free hφ
  | asleep c q =>
      have hsl : Sleeps σ .notFull .main := by
        rcases sleeper_place h ⟨q, hφ⟩ with ⟨rfl, -⟩ | ⟨-, stats, hs⟩
        · exact ⟨q, hφ⟩
        · rw [hφ] at hs
          obtain ⟨-, rfl⟩ := by simpa using hs
          have hpl : σ.place .main = .worker stats (.dequeue .check) := by rw [State.place, hφ]; rfl
          simp [hpl, waitsForRoom] at hw
      have hfull := sleeping_main hcap h free hsl
      by_cases hd : 0 < σ.data.queue.dequeueingSize
      · exact moves_of_pending hcap hn h hret free hd
      · have hserv := serving_eq h
        rw [countIn_congr (serving_free h free)] at hserv
        obtain ⟨t, ht⟩ := countIn_pos.1 (show 0 < countIn inService σ.place by omega)
        cases t with
        | main => 
            have hpl : σ.place .main = q := by rw [State.place, hφ]; rfl
            rcases waiter_place h (.inl ⟨c, hφ⟩) with ⟨k, rfl⟩ | ⟨r, rfl⟩ | ⟨stats, rfl⟩ <;>
              simp [hpl, inService] at ht
        | worker i =>
            rcases worker_moves h hret free i with hm | ⟨r, hr⟩
            · exact hm
            · rcases sleeper_place h ⟨r, hr⟩ with ⟨-, hm, -⟩ | ⟨-, stats, hs⟩
              · simp at hm
              · have hpl : σ.place (.worker i) = .worker stats (.dequeue .check) := by
                  rw [State.place, hs]; rfl
                simp [hpl, inService] at ht

theorem moves_of_owner (h : Reachable (machine n handle) (start n junk cap) σ)
    (hret : Returns handle) {t : Tid n} (ho : σ.owner = some t) : Proceeds handle σ := by
  have ht := ((guarded h).1 t).2 ho
  cases hφ : σ.phase t with
  | run p =>
      rw [hφ] at ht
      refine moves_of_run hret hφ ?_ (.inl ht)
      rintro rfl
      simp [Phase.holds, holds, MainPc.holds] at ht
  | asleep c q | woken q => rw [hφ] at ht; simp [Phase.holds] at ht

/-- No wakeup of the thread pool is lost, and it never deadlocks. -/
theorem pool_never_stuck (hcap : 1 ≤ cap) (hn : 1 ≤ n) (hret : Returns handle)
    (h : Reachable (machine n handle) (start n junk cap) σ) :
    (σ.owner = none → (∃ t, Sleeps σ .notEmpty t) →
      σ.data.queue.dequeueingSize ≤ countIn contending σ.phase) ∧
    (σ.owner = none → ∀ t, Sleeps σ .notFull t → σ.data.queue.size = cap) ∧
    (0 < σ.data.queue.dequeueingSize ∨ waitsForRoom (σ.place .main) = true → Moves handle σ) := by
  refine ⟨fun free hs => pending_covered hcap h free hs, fun free t ht => sleeping_main hcap h free ht,
    fun hw => ?_⟩
  cases ho : σ.owner with
  | some t => exact (moves_of_owner h hret ho).moves
  | none =>
      rcases hw with hd | hw
      · exact (moves_of_pending hcap hn h hret ho hd).moves
      · exact (moves_of_waiting hcap hn h hret ho hw).moves

def fillUp : List (Tid 2 × Choice Unit) :=
  serveOne ++ (.main, .accepted 6) :: List.replicate 3 (.main, .ok)

theorem fillUp_runs : ((machine 2 returns).replay fillUp
    (start 2 (fun _ => ⟨0, 0, 0⟩) 2)).isSome = true := by
  decide +kernel

theorem pool_never_stuck_fillUp : ∃ σ, Reachable (machine 2 returns) (start 2 (fun _ => ⟨0, 0, 0⟩) 2) σ ∧
    Sleeps σ .notFull .main ∧ σ.data.queue.dequeueingSize = 1 ∧ Moves returns σ := by
  have h := replay_reachable (Option.some_get fillUp_runs).symm
  refine ⟨_, h, sleeps_iff.1 (by decide +kernel), by decide +kernel, ?_⟩
  exact (pool_never_stuck (by decide) (by decide) (fun _ _ _ stats => ⟨(), stats, rfl⟩) h).2.2
    (.inl (by decide +kernel))

end WebServer.QueueWakeups
