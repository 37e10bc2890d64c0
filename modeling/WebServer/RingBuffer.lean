import Mathlib.Data.List.Infix
import Mathlib.Data.Nat.ModEq
import Mathlib.Logic.Function.Basic

namespace WebServer.RingBuffer

variable {α : Type}

/-- The values that wait, the number of those taken out but not yet finished, and
the bound on both together. -/
structure Fifo (α : Type) (cap : Nat) where
  pending : List α
  inService : Nat
  room : pending.length + inService ≤ cap

inductive Op (α : Type)
  | push (x : α)
  | pop (x : α)
  | finish

variable {cap : Nat}

def Fifo.empty (α : Type) (cap : Nat) : Fifo α cap := ⟨[], 0, Nat.zero_le _⟩

def Fifo.push (q : Fifo α cap) (x : α) : Option (Fifo α cap) :=
  if h : q.pending.length + q.inService < cap then
    some ⟨q.pending ++ [x], q.inService, by rw [List.length_append]; simp; omega⟩
  else none

def Fifo.pop (q : Fifo α cap) : Option (α × Fifo α cap) :=
  match hp : q.pending with
  | [] => none
  | x :: rest => some (x, ⟨rest, q.inService + 1, by
      have h := q.room
      rw [hp, List.length_cons] at h
      omega⟩)

def Fifo.finish (q : Fifo α cap) : Option (Fifo α cap) :=
  if 0 < q.inService then
    some ⟨q.pending, q.inService - 1, by have h := q.room; omega⟩
  else none

theorem Fifo.push_room (q : Fifo α cap) (x : α) (h : q.pending.length + q.inService < cap) :
    ∃ q', q.push x = some q' ∧ q'.pending = q.pending ++ [x] ∧ q'.inService = q.inService :=
  ⟨_, dif_pos h, rfl, rfl⟩

theorem Fifo.pop_cons (q : Fifo α cap) {x : α} {rest : List α} (h : q.pending = x :: rest) :
    ∃ q', q.pop = some (x, q') ∧ q'.pending = rest ∧ q'.inService = q.inService + 1 := by
  rw [Fifo.pop]
  split
  · next hp => simp [hp] at h
  · next y ys hp =>
    obtain ⟨rfl, rfl⟩ := List.cons.inj (hp.symm.trans h)
    exact ⟨_, rfl, rfl, rfl⟩

theorem Fifo.finish_pos (q : Fifo α cap) (h : 0 < q.inService) :
    ∃ q', q.finish = some q' ∧ q'.pending = q.pending ∧ q'.inService = q.inService - 1 :=
  ⟨_, if_pos h, rfl, rfl⟩

/-- One operation of a history; a `pop` has to hand out what it says. -/
inductive Fifo.Does : Fifo α cap → Op α → Fifo α cap → Prop
  | push {q q'} (x) (h : q.push x = some q') : Does q (.push x) q'
  | pop {q q'} (x) (h : q.pop = some (x, q')) : Does q (.pop x) q'
  | finish {q q'} (h : q.finish = some q') : Does q .finish q'

inductive Fifo.After : List (Op α) → Fifo α cap → Prop
  | nil : After [] (.empty α cap)
  | snoc {ops op q q'} : After ops q → q.Does op q' → After (ops ++ [op]) q'

def pushed (ops : List (Op α)) : List α :=
  ops.filterMap fun | .push x => some x | _ => none

def popped (ops : List (Op α)) : List α :=
  ops.filterMap fun | .pop x => some x | _ => none

theorem Fifo.After.pushed_eq {ops : List (Op α)} {q : Fifo α cap} (h : After ops q) :
    pushed ops = popped ops ++ q.pending := by
  induction h with
  | nil => rfl
  | @snoc ops op q q' _ hd ih =>
      rw [pushed, popped, List.filterMap_append, List.filterMap_append] at *
      cases hd with
      | push x h =>
          simp only [Fifo.push, Option.dite_none_right_eq_some, Option.some.injEq] at h
          obtain ⟨-, rfl⟩ := h
          simp [ih]
      | pop x h =>
          rw [Fifo.pop] at h
          split at h
          · simp at h
          · next y rest hp =>
            obtain ⟨rfl, rfl⟩ := by simpa using h
            simp [ih, hp]
      | finish h =>
          simp only [Fifo.finish, Option.ite_none_right_eq_some, Option.some.injEq] at h
          obtain ⟨-, rfl⟩ := h
          simp [ih]

def isFinish : Op α → Bool
  | .finish => true
  | _ => false

theorem Fifo.After.inService_eq {ops : List (Op α)} {q : Fifo α cap} (h : After ops q) :
    q.inService + ops.countP isFinish = (popped ops).length := by
  induction h with
  | nil => rfl
  | @snoc ops op q q' _ hd ih =>
      rw [popped] at ih ⊢
      rw [List.filterMap_append, List.length_append, List.countP_append]
      cases hd with
      | push x h =>
          simp only [Fifo.push, Option.dite_none_right_eq_some, Option.some.injEq] at h
          obtain ⟨-, rfl⟩ := h
          simpa [isFinish] using ih
      | pop x h =>
          rw [Fifo.pop] at h
          split at h
          · simp at h
          · obtain ⟨rfl, rfl⟩ := by simpa using h
            simp [isFinish]
            omega
      | finish h =>
          simp only [Fifo.finish, Option.ite_none_right_eq_some, Option.some.injEq] at h
          obtain ⟨hpos, rfl⟩ := h
          simp [isFinish]
          omega

/-- The `n` slots of a ring from `front` on. -/
def contents (slot : Nat → α) (cap front n : Nat) : List α :=
  (List.range n).map fun i => slot ((front + i) % cap)

theorem contents_succ (slot : Nat → α) (cap front n : Nat) :
    contents slot cap front (n + 1) = contents slot cap front n ++ [slot ((front + n) % cap)] := by
  simp [contents, List.range_succ]

theorem offset_ne {cap i n : Nat} (front : Nat) (hi : i < n) (hn : n < cap) :
    (front + i) % cap ≠ (front + n) % cap := by
  intro h
  have h : i % cap = n % cap := Nat.ModEq.add_left_cancel' front h
  rw [Nat.mod_eq_of_lt (hi.trans hn), Nat.mod_eq_of_lt hn] at h
  omega

theorem contents_update (slot : Nat → α) {cap front n : Nat} (hn : n < cap) (x : α) :
    contents (Function.update slot ((front + n) % cap) x) cap front n =
      contents slot cap front n := by
  apply List.map_congr_left
  intro i hi
  rw [Function.update_of_ne (offset_ne front (List.mem_range.1 hi) hn)]

theorem contents_pop (slot : Nat → α) {cap front : Nat} (hf : front < cap) (n : Nat) :
    contents slot cap front (n + 1) =
      slot front :: contents slot cap ((front + 1) % cap) n := by
  rw [contents, List.range_succ_eq_map, List.map_cons, List.map_map]
  congr 1
  · rw [Nat.add_zero, Nat.mod_eq_of_lt hf]
  · apply List.map_congr_left
    intro i _
    simp only [Function.comp_apply, Nat.mod_add_mod]
    congr 2
    omega

end WebServer.RingBuffer
