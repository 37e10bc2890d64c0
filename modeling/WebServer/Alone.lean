import WebServer.MonitorRules

namespace WebServer.Monitor

variable {Tid Cond Pc Data Env : Type} [DecidableEq Tid]

def alone (holds : Pc → Bool) (rest : Pc) (t : Tid) (p : Pc) (d : Data) : State Tid Cond Pc Data :=
  ⟨if holds p then some t else none, Function.update (fun _ => .run rest) t (.run p), d⟩

/-- A path of thread `t` through its program that does not wait. -/
inductive Path (M : Machine Tid Cond Pc Data Env) (t : Tid) : Pc → Data → Pc → Data → Prop
  | nil (p : Pc) (d : Data) : Path M t p d p d
  | cons {p q r : Pc} {d d' d'' : Data} (live : M.alive d = true)
      (busy : ∀ c q, M.code t p ≠ .wait c q) (go : (M.code t p).Goes d q d')
      (rest : Path M t q d' r d'') : Path M t p d r d''

variable {M : Machine Tid Cond Pc Data Env} {t : Tid} {holds : Pc → Bool} {p q r rest : Pc}
  {d d' d'' : Data}

omit [DecidableEq Tid] in
theorem Path.trans (h : Path M t p d q d') (h' : Path M t q d' r d'') : Path M t p d r d'' := by
  induction h with
  | nil p d => exact h'
  | cons live busy go _ ih => exact .cons live busy go (ih h')

theorem alone_run : (alone holds rest t p d : State Tid Cond Pc Data).phase t = .run p := by
  simp [alone]

theorem alone_sleeps (c : Cond) (u : Tid) :
    ¬ Sleeps (alone holds rest t p d : State Tid Cond Pc Data) c u := by
  rintro ⟨s, hs⟩
  by_cases hu : u = t
  · subst u
    simp [alone] at hs
  · simp [alone, hu] at hs

theorem alone_step (hb : ∀ t p, (M.code t p).Bracketed holds p) (live : M.alive d = true)
    (busy : ∀ c q, M.code t p ≠ .wait c q) (go : (M.code t p).Goes d q d') :
    Step M (alone holds rest t p d) (alone holds rest t q d') := by
  apply Step.exec t live
  have hp : (alone holds rest t p d : State Tid Cond Pc Data).phase t = .run p := alone_run
  cases hi : M.code t p with
  | lock s =>
      obtain ⟨hfree, hheld⟩ := bracketed_of hb hi
      rw [hi] at go
      obtain ⟨rfl, rfl⟩ := go
      have h := Exec.lock hp hi (by simp [alone, hfree])
      simpa [alone, hheld] using h
  | unlock s =>
      obtain ⟨hheld, hfree⟩ := bracketed_of hb hi
      rw [hi] at go
      obtain ⟨rfl, rfl⟩ := go
      have h := Exec.unlock hp hi
      simpa [alone, hfree] using h
  | wait c s => exact absurd hi (busy c s)
  | signal c s =>
      have hsame : holds s = holds p := bracketed_of hb hi
      rw [hi] at go
      obtain ⟨rfl, rfl⟩ := go
      have h := Exec.signal (fun _ => false) hp hi nofun fun ⟨u, hu⟩ => absurd hu (alone_sleeps c u)
      simpa [alone, wakeSet_none, hsame] using h
  | broadcast c s =>
      have hsame : holds s = holds p := bracketed_of hb hi
      rw [hi] at go
      obtain ⟨rfl, rfl⟩ := go
      have h := Exec.broadcast (fun _ => false) hp hi fun u =>
        ⟨nofun, fun hu => absurd hu (alone_sleeps c u)⟩
      simpa [alone, wakeSet_none, hsame] using h
  | act f =>
      rw [hi] at go
      obtain ⟨e, hf⟩ := go
      have hsame := bracketed_of hb hi d e d' q hf
      have h := Exec.act e hp hi hf
      simpa [alone, hsame] using h

theorem Path.reachable (h : Path M t p d q d') (hb : ∀ t p, (M.code t p).Bracketed holds p)
    (rest : Pc) : Reachable M (alone holds rest t p d) (alone holds rest t q d') := by
  induction h with
  | nil p d => exact .start
  | cons live busy go _ ih => exact (Reachable.start.next (alone_step hb live busy go)).trans ih

end WebServer.Monitor
