import WebServer.QueueWakeups

namespace WebServer.QueueRoom

open Monitor RequestQueue
open QueueRefinement (returns)
open QueueWakeups (ofMain goes_role)

variable {n cap : Nat} {Script : Type} {handle : Handler Script} {junk : Nat → Request}
  {σ : QueueState n}

def relies : MainPc → Bool
  | .unlock _ | .stamp _ => true
  | .enqueue _ s => match s with
    | .lock | .check | .connfd | .arrival | .rear | .size => true
    | .wait | .dequeueingSize | .signal | .unlock => false
  | _ => false

structure Room (cap : Nat) (p : MainPc) (d : Shared n) : Prop where
  capacity : d.queue.capacity = cap
  size_le : d.queue.size ≤ cap
  room : relies p = true → d.queue.size < cap
  once : ∀ r, p ≠ .enqueue r .wait

def Claim (cap : Nat) (t : Tid n) (p : Pc) (d : Shared n) : Prop :=
  match t with
  | .main => ∃ m, p = .main m ∧ Room cap m d
  | .worker _ => ofMain p = false

theorem edge_room {t : Tid n} {p q : Pc} {d d' : Shared n} (hp : ofMain p = false)
    (h : Edge handle t d p q d') :
    d'.queue.capacity = d.queue.capacity ∧ d'.queue.size ≤ d.queue.size := by
  cases h with
  | finished => exact ⟨rfl, by simp⟩
  | _ => first | exact ⟨rfl, le_rfl⟩ | cases hp

theorem main_room {t : Tid n} {m : MainPc} {q : Pc} {d d' : Shared n}
    (h : Edge handle t d (.main m) q d') (hr : Room cap m d) :
    ∃ m', q = .main m' ∧ Room cap m' d' := by
  obtain ⟨hc, hle, hroom, honce⟩ := hr
  cases h with
  | waitRoom c room =>
      rw [hc] at room
      exact ⟨_, rfl, hc, hle, fun _ => lt_of_le_of_ne hle room, by simp⟩
  | enqueueFull r full =>
      have hlt := hroom rfl
      rw [hc] at full
      exact absurd full hlt.ne
  | grown r =>
      have hlt := hroom rfl
      exact ⟨_, rfl, hc, Int.add_one_le_of_lt hlt, by simp [relies], by simp⟩
  | enqueueWoken r => exact absurd rfl (honce r)
  | waitUnlocked | stamped | enqueueLocked | enqueueRoom | connfdStored | arrivalStored | rearMoved =>
      exact ⟨_, rfl, hc, hle, fun _ => hroom rfl, by simp⟩
  | _ => exact ⟨_, rfl, hc, hle, by simp [relies], by simp⟩

theorem claim (h : Reachable (machine n handle) (start n junk cap) σ) (t : Tid n) :
    Claim cap t (σ.place t) σ.data := by
  apply h.stable
  · intro t
    cases t with
    | main => exact ⟨.accept, rfl, rfl, Int.natCast_nonneg cap, by simp [relies], by simp⟩
    | worker i => rfl
  · intro t p d q d' hp hg
    cases t with
    | main =>
        obtain ⟨m, rfl, hr⟩ := hp
        have he : Edge handle .main d (.main m) q d' := goes_edge hg
        exact main_room he hr
    | worker i => exact (goes_role hg).trans hp
  · intro t p d q d' u r hu hp hr hg
    cases u with
    | worker i => exact hr
    | main =>
        cases t with
        | main => exact absurd rfl hu
        | worker i =>
            obtain ⟨m, rfl, hc, hle, hroom, honce⟩ := hr
            have he : Edge handle (.worker i) d p q d' := goes_edge hg
            obtain ⟨hcap, hsize⟩ := edge_room hp he
            exact ⟨m, rfl, hcap.trans hc, hsize.trans hle, fun hm => hsize.trans_lt (hroom hm), honce⟩

theorem room_of (h : Reachable (machine n handle) (start n junk cap) σ) {m : MainPc}
    (hm : σ.place .main = .main m) : Room cap m σ.data := by
  obtain ⟨m', hm', hr⟩ := claim h .main
  obtain rfl := Pc.main.inj (hm.symm.trans hm')
  exact hr

theorem goesOn_main (h : Reachable (machine n handle) (start n junk cap) σ) :
    (σ.phase .main).GoesOn fun q => ∃ k, q = .main (.check k) := by
  refine h.goesOn trivial fun τ p c q hτ hp hc => ?_
  have hpl := place_of_run hp
  obtain ⟨m, hm, hr⟩ := claim hτ .main
  rw [hpl] at hm
  rcases QueueRefinement.code_wait hc with ⟨-, k, -, rfl⟩ | ⟨-, r, rfl, -⟩ | ⟨-, stats, rfl, -⟩
  · exact ⟨k, rfl⟩
  · exact absurd (Pc.main.inj hm).symm (hr.once r)
  · cases hm

/-- From the end of main's own wait to the increment of `size` there is room for the
request, so its arrival is stamped when there is, and the wait in `enqueue` is
never entered. -/
theorem stamp_after_room (h : Reachable (machine n handle) (start n junk cap) σ) :
    (∀ m, σ.place .main = .main m → relies m = true →
      σ.data.queue.size < σ.data.queue.capacity) ∧
    ∀ r, σ.phase .main ≠ .run (.main (.enqueue r .wait)) ∧
      (∀ c, σ.phase .main ≠ .asleep c (.main (.enqueue r .check))) ∧
      σ.phase .main ≠ .woken (.main (.enqueue r .check)) := by
  refine ⟨fun m hm hrelies => ?_, fun r => ⟨fun hp => ?_, fun c hp => ?_, fun hp => ?_⟩⟩
  · have hr := room_of h hm
    rw [hr.capacity]
    exact hr.room hrelies
  · exact (room_of h (place_of_run hp)).once r rfl
  · have hg := goesOn_main h
    rw [hp] at hg
    obtain ⟨k, hk⟩ := hg
    cases hk
  · have hg := goesOn_main h
    rw [hp] at hg
    obtain ⟨k, hk⟩ := hg
    cases hk

def waitThenStamp : List (Tid 1 × Choice Unit) :=
  let main (k : Nat) : List (Tid 1 × Choice Unit) := List.replicate k (.main, .ok)
  let worker (k : Nat) : List (Tid 1 × Choice Unit) := List.replicate k (.worker 0, .ok)
  [[(.main, .accepted 4)], main 3, [(.main, .time ⟨4, 0⟩)], main 9, [(.main, .accepted 5)], main 3,
    worker 5, [(.worker 0, .time ⟨7, 0⟩)], worker 2, [(.worker 0, .script ())], worker 5,
    main 3].flatten

theorem waitThenStamp_runs : ((machine 1 returns).replay waitThenStamp
    (start 1 (fun _ => ⟨0, 0, 0⟩) 1)).isSome = true := by
  decide +kernel

theorem stamp_after_room_waits : ∃ σ,
    Reachable (machine 1 returns) (start 1 (fun _ => ⟨0, 0, 0⟩) 1) σ ∧
      σ.place .main = .main (.stamp 5) ∧ σ.data.queue.size < σ.data.queue.capacity := by
  have h := replay_reachable (Option.some_get waitThenStamp_runs).symm
  have hm : (((machine 1 returns).replay waitThenStamp
    (start 1 (fun _ => ⟨0, 0, 0⟩) 1)).get waitThenStamp_runs).place .main = .main (.stamp 5) := by
    rfl
  exact ⟨_, h, hm, (stamp_after_room h).1 _ hm rfl⟩

end WebServer.QueueRoom
