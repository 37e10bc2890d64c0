import WebServer.Monitor

namespace WebServer.Monitor

variable {Tid Cond Pc Data Env : Type} [DecidableEq Tid] {allow : Env → Bool}

def Instr.restrict (allow : Env → Bool) : Instr Cond Pc Data Env → Instr Cond Pc Data Env
  | .act f => .act fun d e => if allow e = true then f d e else none
  | i => i

def Machine.restrict (M : Machine Tid Cond Pc Data Env) (allow : Env → Bool) :
    Machine Tid Cond Pc Data Env :=
  ⟨fun t p => (M.code t p).restrict allow, M.alive⟩

theorem goes_restrict {i : Instr Cond Pc Data Env} {d d' : Data} {q : Pc}
    (h : (i.restrict allow).Goes d q d') : i.Goes d q d' := by
  cases i with
  | act f =>
      obtain ⟨e, h⟩ := h
      exact ⟨e, (Option.ite_none_right_eq_some.1 h).2⟩
  | _ => exact h

theorem restrict_op {i j : Instr Cond Pc Data Env} (h : i.restrict allow = j)
    (hj : ∀ f, j ≠ .act f) : i = j := by
  cases i with
  | act f => exact absurd h.symm (hj _)
  | _ => exact h

theorem restrict_act {i : Instr Cond Pc Data Env} {f : Data → Env → Option (Data × Pc)}
    (h : i.restrict allow = .act f) :
    ∃ g, i = .act g ∧ ∀ d e r, f d e = some r → g d e = some r := by
  cases i with
  | act g =>
      obtain rfl := Instr.act.inj h
      exact ⟨g, rfl, fun d e r hr => (Option.ite_none_right_eq_some.1 hr).2⟩
  | _ => cases h

variable {M : Machine Tid Cond Pc Data Env} {t : Tid} {σ₀ σ τ : State Tid Cond Pc Data}

theorem exec_restrict (h : Exec (M.restrict allow) t σ τ) : Exec M t σ τ := by
  cases h with
  | relock hp free => exact .relock hp free
  | lock hp hi free => exact .lock hp (restrict_op hi nofun) free
  | unlock hp hi => exact .unlock hp (restrict_op hi nofun)
  | wait hp hi => exact .wait hp (restrict_op hi nofun)
  | signal W hp hi hW one => exact .signal W hp (restrict_op hi nofun) hW one
  | broadcast W hp hi hW => exact .broadcast W hp (restrict_op hi nofun) hW
  | act e hp hi hf =>
      obtain ⟨g, hg, hall⟩ := restrict_act hi
      exact .act e hp hg (hall _ _ _ hf)

theorem restrict_reachable (h : Reachable (M.restrict allow) σ₀ σ) : Reachable M σ₀ σ := by
  induction h with
  | start => exact .start
  | next _ hs ih =>
      cases hs with
      | exec t live h => exact ih.next (.exec t live (exec_restrict h))
      | spurious u live h => exact ih.next (.spurious u live h)

def Instr.Within (i j : Instr Cond Pc Data Env) : Prop :=
  i = j ∨ ∃ f g, i = .act f ∧ j = .act g ∧ ∀ d e r, f d e = some r → g d e = some r

variable {M' : Machine Tid Cond Pc Data Env}

theorem exec_within (h : Exec M t σ τ)
    (hi : ∀ p, σ.phase t = .run p → (M.code t p).Within (M'.code t p)) : Exec M' t σ τ := by
  have op {p : Pc} {j : Instr Cond Pc Data Env} (hp : σ.phase t = .run p) (hc : M.code t p = j)
      (hj : ∀ f, j ≠ .act f) : M'.code t p = j := by
    rcases hi p hp with heq | ⟨f, g, hf, -⟩
    · exact heq.symm.trans hc
    · exact absurd (hc.symm.trans hf) (hj f)
  cases h with
  | relock hp free => exact .relock hp free
  | lock hp hc free => exact .lock hp (op hp hc (by simp)) free
  | unlock hp hc => exact .unlock hp (op hp hc (by simp))
  | wait hp hc => exact .wait hp (op hp hc (by simp))
  | signal W hp hc hW one => exact .signal W hp (op hp hc (by simp)) hW one
  | broadcast W hp hc hW => exact .broadcast W hp (op hp hc (by simp)) hW
  | act e hp hc hf =>
      rcases hi _ hp with heq | ⟨f, g, hf', hg, hall⟩
      · exact .act e hp (heq.symm.trans hc) hf
      · obtain rfl := Instr.act.inj (hc.symm.trans hf')
        exact .act e hp hg (hall _ _ _ hf)

end WebServer.Monitor
