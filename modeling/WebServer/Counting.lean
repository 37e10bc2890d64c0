import Mathlib.Data.Fintype.Card
import Mathlib.Data.Finset.Card
import Mathlib.Tactic.Ring
import WebServer.Monitor

namespace WebServer.Monitor

variable {Tid Cond Pc Data Env : Type} [DecidableEq Tid] [Fintype Tid]

def countIn (R : Pc → Bool) (place : Tid → Pc) : Nat :=
  (Finset.univ.filter fun t => R (place t) = true).card

theorem countIn_update (R : Pc → Bool) (place : Tid → Pc) (t : Tid) (q : Pc) :
    (countIn R (Function.update place t q) : Int) =
      countIn R place + (if R q then 1 else 0) - (if R (place t) then 1 else 0) := by
  have hsplit (f : Tid → Pc) : countIn R f =
      ((Finset.univ.erase t).filter fun u => R (f u) = true).card + (if R (f t) then 1 else 0) := by
    rw [countIn, ← Finset.insert_erase (Finset.mem_univ t), Finset.filter_insert]
    split
    · rw [Finset.card_insert_of_notMem (by simp)]
      simp
    · simp
  have hrest : ((Finset.univ.erase t).filter fun u => R (Function.update place t q u) = true) =
      (Finset.univ.erase t).filter fun u => R (place u) = true := by
    apply Finset.filter_congr
    intro u hu
    rw [Function.update_of_ne (Finset.ne_of_mem_erase hu)]
  rw [hsplit, hsplit place, hrest, Function.update_self]
  push_cast
  ring

omit [DecidableEq Tid] in
theorem countIn_pos {R : Pc → Bool} {place : Tid → Pc} :
    0 < countIn R place ↔ ∃ t, R (place t) = true := by
  simp [countIn, Finset.card_pos, Finset.Nonempty]

omit [DecidableEq Tid] in
theorem countIn_eq_zero {R : Pc → Bool} {place : Tid → Pc} :
    countIn R place = 0 ↔ ∀ t, R (place t) = false := by
  simp [countIn, Finset.filter_eq_empty_iff]

omit [DecidableEq Tid] in
theorem countIn_congr {R R' : Pc → Bool} {place : Tid → Pc} (h : ∀ t, R (place t) = R' (place t)) :
    countIn R place = countIn R' place := by
  simp only [countIn, h]

omit [DecidableEq Tid] in
theorem countIn_mono {R : Pc → Bool} {f g : Tid → Pc} (h : ∀ t, R (f t) = true → R (g t) = true) :
    countIn R f ≤ countIn R g :=
  Finset.card_le_card fun t ht => by simp_all

omit [DecidableEq Tid] in
theorem countIn_lt {R : Pc → Bool} {f g : Tid → Pc} (h : ∀ t, R (f t) = true → R (g t) = true)
    {t : Tid} (hf : R (f t) = false) (hg : R (g t) = true) : countIn R f < countIn R g := by
  refine Finset.card_lt_card (Finset.ssubset_iff_subset_ne.2 ⟨fun t ht => by simp_all, fun he => ?_⟩)
  have ht : t ∈ Finset.univ.filter fun t => R (g t) = true := by simp [hg]
  rw [← he] at ht
  simp [hf] at ht

/-- A counter that every instruction moves as its thread enters and leaves a
region counts the threads in that region. -/
theorem Reachable.counter {M : Machine Tid Cond Pc Data Env} {σ₀ σ : State Tid Cond Pc Data}
    (h : Reachable M σ₀ σ) (R : Pc → Bool) (v : Data → Int)
    (start : v σ₀.data = countIn R σ₀.place)
    (edge : ∀ t p d q d', (M.code t p).Goes d q d' →
      v d' = v d + (if R q then 1 else 0) - (if R p then 1 else 0)) :
    v σ.data = countIn R σ.place :=
  h.place_invariant (I := fun f d => v d = countIn R f) start fun f d t q d' hi hg => by
    rw [countIn_update, ← hi, edge t (f t) d q d' hg]

end WebServer.Monitor
