import Mathlib.Data.List.Infix
import Mathlib.Logic.Function.Basic

namespace WebServer.Linearizability

variable {State Op Ret : Type}

/-- A sequential object: its first state, and what an operation makes of a state and
returns. -/
structure Object (State Op Ret : Type) where
  init : State
  step : State → Op → State × Ret

/-- What the callers see. Every call has its own number. -/
inductive Action (Op Ret : Type)
  | call (c : Nat) (o : Op)
  | ret (c : Nat) (r : Ret)

structure Operation (Op Ret : Type) where
  number : Nat
  op : Op
  ret : Ret

def Object.after (O : Object State Op Ret) (s : State) (xs : List (Operation Op Ret)) : State :=
  xs.foldl (fun s x => (O.step s x.op).1) s

def Object.Legal (O : Object State Op Ret) : State → List (Operation Op Ret) → Prop
  | _, [] => True
  | s, x :: xs => x.ret = (O.step s x.op).2 ∧ O.Legal (O.step s x.op).1 xs

variable {O : Object State Op Ret} {s : State} {xs ys : List (Operation Op Ret)}
  {h : List (Action Op Ret)}

@[simp] theorem after_snoc (x : Operation Op Ret) :
    O.after s (xs ++ [x]) = (O.step (O.after s xs) x.op).1 := by
  rw [Object.after, List.foldl_append]
  rfl

theorem legal_append : O.Legal s (xs ++ ys) ↔ O.Legal s xs ∧ O.Legal (O.after s xs) ys := by
  induction xs generalizing s with
  | nil => simp [Object.Legal, Object.after]
  | cons x xs ih =>
      rw [List.cons_append, Object.Legal, Object.Legal, ih, and_assoc]
      rfl

def numbers (xs : List (Operation Op Ret)) : List Nat := xs.map Operation.number

/-- The operations `xs`, in their order, explain the history `h`: all that have returned
are among them, with what they have returned, and each stands behind those that had
returned before it was called. Of the others some may have taken effect. -/
structure Linearizes (O : Object State Op Ret) (h : List (Action Op Ret))
    (xs : List (Operation Op Ret)) : Prop where
  legal : O.Legal O.init xs
  once : (numbers xs).Nodup
  called : ∀ x ∈ xs, .call x.number x.op ∈ h
  returned : ∀ c r, .ret c r ∈ h → ∃ x ∈ xs, x.number = c ∧ x.ret = r
  order : ∀ pre c o, pre ++ [.call c o] <+: h → ∀ c' r, .ret c' r ∈ pre →
    ∀ before x, before ++ [x] <+: xs → x.number = c → c' ∈ numbers before

inductive Stage (Op Ret : Type)
  | new
  | called (o : Op)
  | effected (r : Ret)
  | done

structure Execution (Op Ret : Type) where
  stage : Nat → Stage Op Ret
  points : List (Operation Op Ret)
  history : List (Action Op Ret)

def Execution.none : Execution Op Ret := ⟨fun _ => .new, [], []⟩

def Execution.call (x : Execution Op Ret) (c : Nat) (o : Op) : Execution Op Ret :=
  { x with stage := Function.update x.stage c (.called o), history := x.history ++ [.call c o] }

def Execution.effect (x : Execution Op Ret) (c : Nat) (o : Op) (r : Ret) : Execution Op Ret :=
  { x with stage := Function.update x.stage c (.effected r), points := x.points ++ [⟨c, o, r⟩] }

def Execution.ret (x : Execution Op Ret) (c : Nat) (r : Ret) : Execution Op Ret :=
  { x with stage := Function.update x.stage c .done, history := x.history ++ [.ret c r] }

/-- Between its call and its return an operation takes effect at once. -/
inductive Runs (O : Object State Op Ret) : Execution Op Ret → Prop
  | none : Runs O .none
  | call {x} (c : Nat) (o : Op) (h : Runs O x) (new : x.stage c = .new) : Runs O (x.call c o)
  | effect {x} (c : Nat) (o : Op) (r : Ret) (h : Runs O x) (called : x.stage c = .called o)
      (result : r = (O.step (O.after O.init x.points) o).2) : Runs O (x.effect c o r)
  | ret {x} (c : Nat) (r : Ret) (h : Runs O x) (effected : x.stage c = .effected r) :
      Runs O (x.ret c r)

def Stage.Fits (c : Nat) (xs : List (Operation Op Ret)) (h : List (Action Op Ret)) :
    Stage Op Ret → Prop
  | .new => (∀ o, .call c o ∉ h) ∧ c ∉ numbers xs
  | .called o => .call c o ∈ h ∧ c ∉ numbers xs
  | .effected r => ∃ x ∈ xs, x.number = c ∧ x.ret = r
  | .done => True

variable {x : Execution Op Ret} {c : Nat} {o : Op} {r : Ret} {φ : Stage Op Ret}

theorem mem_numbers {y : Operation Op Ret} (hy : y ∈ xs) : y.number ∈ numbers xs :=
  List.mem_map_of_mem hy

theorem Stage.Fits.seen (hf : φ.Fits c xs h) {a : Action Op Ret} (ha : ∀ o, a ≠ .call c o) :
    φ.Fits c xs (h ++ [a]) := by
  cases φ with
  | new =>
      refine ⟨fun o hm => ?_, hf.2⟩
      rw [List.mem_append, List.mem_singleton] at hm
      rcases hm with hm | hm
      · exact hf.1 o hm
      · exact ha o hm.symm
  | called o => exact ⟨List.mem_append_left _ hf.1, hf.2⟩
  | effected r => exact hf
  | done => trivial

theorem Stage.Fits.point (hf : φ.Fits c xs h) {y : Operation Op Ret} (hy : y.number ≠ c) :
    φ.Fits c (xs ++ [y]) h := by
  have hnot (hc : c ∉ numbers xs) : c ∉ numbers (xs ++ [y]) := by
    rw [numbers, List.map_append, List.mem_append, not_or]
    exact ⟨hc, by simpa using hy.symm⟩
  cases φ with
  | new => exact ⟨hf.1, hnot hf.2⟩
  | called o => exact ⟨hf.1, hnot hf.2⟩
  | effected r =>
      obtain ⟨z, hz, hzc⟩ := hf
      exact ⟨z, List.mem_append_left _ hz, hzc⟩
  | done => trivial

theorem Runs.fits (hr : Runs O x) (c : Nat) : (x.stage c).Fits c x.points x.history := by
  revert c
  induction hr with
  | none => exact fun c => ⟨by simp [Execution.none], by simp [Execution.none, numbers]⟩
  | call c o _ new ih =>
      have hnew := ih c
      rw [new] at hnew
      exact (Function.forall_update_iff _ fun c' φ => Stage.Fits c' _ _ φ).2
        ⟨⟨List.mem_append_right _ (List.mem_singleton.2 rfl), hnew.2⟩,
          fun c' hc => (ih c').seen fun o' he => hc (Action.call.inj he).1.symm⟩
  | effect c o r _ called result ih =>
      exact (Function.forall_update_iff _ fun c' φ => Stage.Fits c' _ _ φ).2
        ⟨⟨_, List.mem_append_right _ (List.mem_singleton.2 rfl), rfl, rfl⟩,
          fun c' hc => (ih c').point (Ne.symm hc)⟩
  | ret c r _ effected ih =>
      exact (Function.forall_update_iff _ fun c' φ => Stage.Fits c' _ _ φ).2
        ⟨trivial, fun c' _ => (ih c').seen (a := .ret c r) (by simp)⟩

theorem Linearizes.call (hl : Linearizes O h xs) (hc : c ∉ numbers xs) (o : Op) :
    Linearizes O (h ++ [.call c o]) xs where
  legal := hl.legal
  once := hl.once
  called y hy := List.mem_append_left _ (hl.called y hy)
  returned c' r hm := hl.returned c' r (by simpa using hm)
  order pre c' o' hp c'' r hm before y hb hy := by
    rcases List.prefix_concat_iff.1 hp with heq | hp
    · obtain ⟨-, heq⟩ := List.append_inj' heq rfl
      obtain ⟨rfl, -⟩ := Action.call.inj (List.head_eq_of_cons_eq heq)
      exact absurd (hy ▸ mem_numbers (hb.subset (by simp))) hc
    · exact hl.order pre c' o' hp c'' r hm before y hb hy

theorem Linearizes.effect (hl : Linearizes O h xs) (hc : .call c o ∈ h) (hnew : c ∉ numbers xs)
    (hr : r = (O.step (O.after O.init xs) o).2) : Linearizes O h (xs ++ [⟨c, o, r⟩]) where
  legal := legal_append.2 ⟨hl.legal, hr, trivial⟩
  once := by
    rw [numbers, List.map_append, List.map_singleton]
    exact List.nodup_append.2 ⟨hl.once, by simp, fun a ha b hb => by
      obtain rfl := List.mem_singleton.1 hb
      rintro rfl
      exact hnew ha⟩
  called y hy := by
    rw [List.mem_append, List.mem_singleton] at hy
    rcases hy with hy | rfl
    · exact hl.called y hy
    · exact hc
  returned c' r' hm := by
    obtain ⟨y, hy, hyc⟩ := hl.returned c' r' hm
    exact ⟨y, List.mem_append_left _ hy, hyc⟩
  order pre c' o' hp c'' r' hm before y hb hy := by
    rcases List.prefix_concat_iff.1 hb with heq | hb
    · obtain ⟨rfl, -⟩ := List.append_inj' heq rfl
      obtain ⟨z, hz, rfl, -⟩ := hl.returned c'' r' (hp.subset (List.mem_append_left _ hm))
      exact mem_numbers hz
    · exact hl.order pre c' o' hp c'' r' hm before y hb hy

theorem Linearizes.ret (hl : Linearizes O h xs) (hx : ∃ y ∈ xs, y.number = c ∧ y.ret = r) :
    Linearizes O (h ++ [.ret c r]) xs where
  legal := hl.legal
  once := hl.once
  called y hy := List.mem_append_left _ (hl.called y hy)
  returned c' r' hm := by
    rw [List.mem_append, List.mem_singleton] at hm
    rcases hm with hm | heq
    · exact hl.returned c' r' hm
    · obtain ⟨rfl, rfl⟩ := Action.ret.inj heq
      exact hx
  order pre c' o' hp c'' r' hm before y hb hy := by
    rcases List.prefix_concat_iff.1 hp with heq | hp
    · obtain ⟨-, heq⟩ := List.append_inj' heq rfl
      cases heq
    · exact hl.order pre c' o' hp c'' r' hm before y hb hy

/-- In the order in which they take effect the operations explain what has been seen. -/
theorem Runs.linearizes (hr : Runs O x) : Linearizes O x.history x.points := by
  induction hr with
  | none =>
      refine ⟨trivial, List.nodup_nil, ?_, ?_, ?_⟩ <;> simp [Execution.none]
  | call c o hr new ih =>
      have hfits := hr.fits c
      rw [new] at hfits
      exact ih.call hfits.2 o
  | effect c o r hr called result ih =>
      have hfits := hr.fits c
      rw [called] at hfits
      exact ih.effect hfits.1 hfits.2 result
  | ret c r hr effected ih =>
      have hfits := hr.fits c
      rw [effected] at hfits
      exact ih.ret hfits

end WebServer.Linearizability
