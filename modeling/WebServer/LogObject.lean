import WebServer.Linearizability
import WebServer.LogAtomic

namespace WebServer.LogObject

open Monitor ServerLog LogLock LogBuffer LogContent LogHistory LogAtomic Linearizability

inductive Op
  | getLog
  | addToLog (data : Option (List Byte)) (dataLen : CInt)
  deriving DecidableEq

inductive Ret
  | copied (dst : List Byte) (size : Int)
  | added
  deriving DecidableEq

def appended : Option (List Byte) → CInt → List Byte
  | none, _ => []
  | some bs, n => bs.take n.1.toNat

def log : Object (List Byte) Op Ret where
  init := []
  step text
    | .getLog => (text, .copied (text ++ [0]) (int32 text.length))
    | .addToLog data n => (text ++ appended data n, .added)

@[simp] theorem log_addToLog (text : List Byte) (data : Option (List Byte)) (n : CInt) :
    log.step text (.addToLog data n) = (text ++ appended data n, .added) := rfl

def action : Event → Option (Action Op Ret)
  | .callGet c => some (.call c .getLog)
  | .retGet c dst n => some (.ret c (.copied dst n))
  | .callAdd c data n => some (.call c (.addToLog data n))
  | .retAdd c => some (.ret c .added)
  | .wrote _ _ => none

def history (tr : List Event) : List (Action Op Ret) := tr.filterMap action

theorem history_snoc (tr : List Event) (e : Event) :
    history (tr ++ [e]) = history tr ++ (action e).toList := by
  rw [history, List.filterMap_append]
  cases h : action e <;> simp [h, history]

theorem history_wrote (tr : List Event) (c : Nat) (bs : List Byte) :
    history (tr ++ [.wrote c bs]) = history tr := by
  rw [history_snoc]
  exact List.append_nil _

def GetPc.handing : GetPc → Option (List Byte × Int)
  | .endLock dst n | .decReaders dst n | .testReaders dst n | .signal dst n | .endUnlock dst n
  | .ret dst n => some (dst, n)
  | _ => none

/-- `get_log` takes effect where it reads the length, `add_to_log` where its section ends
or it finds that there is nothing to add. -/
def stageOf (φ : Stage Op Ret) : Pc → Prop
  | .idle => True
  | .get _ s =>
      match GetPc.handing s with
      | none => φ = .called .getLog
      | some (dst, n) => φ = .effected (.copied dst n)
  | .addTest _ data n => φ = .called (.addToLog data n)
  | .add _ e s =>
      if afterSection s then φ = .effected .added
      else ∃ data n, φ = .called (.addToLog data n) ∧ appended data n = e.bytes
  | .addRet _ => φ = .effected .added

structure Abstracts {Tid : Type} (place : Tid → Pc) (d : Shared) (x : Execution Op Ret) : Prop where
  runs : Runs log x
  text : log.after [] x.points = logged d.trace
  seen : x.history = history d.trace
  threads : ∀ t c, callNo (place t) = some c → stageOf (x.stage c) (place t)
  unused : ∀ c, d.calls ≤ c → x.stage c = .new

variable {Tid : Type} [DecidableEq Tid] {place : Tid → Pc} {p q : Pc} {d d' : Shared} {t : Tid}
  {x : Execution Op Ret} {c : Nat}

theorem threads_update (h : ∀ u c, callNo (place u) = some c → stageOf (x.stage c) (place u))
    {φ : Stage Op Ret} (hothers : ∀ u, u ≠ t → callNo (place u) ≠ some c)
    (hq : ∀ c', callNo q = some c' → c' = c ∧ stageOf φ q) (u : Tid) (c' : Nat)
    (hc : callNo (Function.update place t q u) = some c') :
    stageOf (Function.update x.stage c φ c') (Function.update place t q u) := by
  by_cases hu : u = t
  · subst u
    rw [Function.update_self] at hc ⊢
    obtain ⟨rfl, hs⟩ := hq c' hc
    rwa [Function.update_self]
  · rw [Function.update_of_ne hu] at hc ⊢
    have hne : c' ≠ c := by
      rintro rfl
      exact hothers u hu hc
    rw [Function.update_of_ne hne]
    exact h u c' hc

theorem Abstracts.silent (h : Abstracts place d x) (hcalls : d'.calls = d.calls)
    (htrace : d'.trace = d.trace) (hq : ∀ c, callNo q = some c → stageOf (x.stage c) q) :
    Abstracts (Function.update place t q) d' x where
  runs := h.runs
  text := by rw [htrace]; exact h.text
  seen := by rw [htrace]; exact h.seen
  threads u c hc := by
    by_cases hu : u = t
    · subst u
      rw [Function.update_self] at hc ⊢
      exact hq c hc
    · rw [Function.update_of_ne hu] at hc ⊢
      exact h.threads u c hc
  unused c hc := h.unused c (hcalls ▸ hc)

theorem Abstracts.called (h : Abstracts place d x) {o : Op} {e : Event} (hn : Numbered place d)
    (he : action e = some (.call d.calls o)) (hlog : entries [e] = [])
    (hq : callNo q = some d.calls ∧ stageOf (.called o) q) :
    Abstracts (Function.update place t q) { d with calls := d.calls + 1, trace := d.trace ++ [e] }
      (x.call d.calls o) where
  runs := h.runs.call d.calls o (h.unused _ le_rfl)
  text := (logged_other _ hlog).symm ▸ h.text
  seen := by
    rw [history_snoc, he, ← h.seen]
    rfl
  threads := by
    refine threads_update h.threads (fun u _ hc => ?_) fun c hc => ?_
    · exact absurd (hn.below u _ hc) (lt_irrefl _)
    · exact ⟨Option.some.inj (hc.symm.trans hq.1), hq.2⟩
  unused c hc := by
    have hne : c ≠ d.calls := Nat.ne_of_gt hc
    exact (Function.update_of_ne hne _ _).trans (h.unused c (Nat.le_of_succ_le hc))

theorem Abstracts.effected (h : Abstracts place d x) {o : Op} {r : Ret} (hn : Numbered place d)
    (ht : callNo (place t) = some c) (hcalled : x.stage c = .called o)
    (hr : r = (log.step (logged d.trace) o).2) (hcalls : d'.calls = d.calls)
    (htext : logged d'.trace = (log.step (logged d.trace) o).1)
    (hseen : history d'.trace = history d.trace)
    (hq : ∀ c', callNo q = some c' → c' = c ∧ stageOf (.effected r) q) :
    Abstracts (Function.update place t q) d' (x.effect c o r) where
  runs := h.runs.effect c o r hcalled (hr.trans (by rw [← h.text]; rfl))
  text := by rw [Execution.effect, after_snoc, h.text, htext]
  seen := h.seen.trans hseen.symm
  threads := threads_update h.threads (fun u hu hc => hu (hn.distinct u t c hc ht)) hq
  unused c' hc' := by
    have hne : c' ≠ c := by
      rintro rfl
      exact absurd (hn.below t _ ht) (not_lt.2 (hcalls ▸ hc'))
    exact (Function.update_of_ne hne _ _).trans (h.unused c' (hcalls ▸ hc'))

theorem Abstracts.returned (h : Abstracts place d x) {r : Ret} {e : Event} (hn : Numbered place d)
    (ht : callNo (place t) = some c) (heffected : x.stage c = .effected r)
    (he : action e = some (.ret c r)) (hlog : entries [e] = []) :
    Abstracts (Function.update place t .idle) { d with trace := d.trace ++ [e] } (x.ret c r) where
  runs := h.runs.ret c r heffected
  text := (logged_other _ hlog).symm ▸ h.text
  seen := by
    rw [history_snoc, he, ← h.seen]
    rfl
  threads := threads_update h.threads (fun u hu hc => hu (hn.distinct u t c hc ht)) nofun
  unused c' hc' := by
    have hne : c' ≠ c := by
      rintro rfl
      exact absurd (hn.below t _ ht) (not_lt.2 hc')
    exact (Function.update_of_ne hne _ _).trans (h.unused c' hc')

theorem abstracts_edge (h : Abstracts place d x) (hn : Numbered place d)
    (hcopied : copied d (place t))
    (hsize : counted (place t) = true → d.log.size = (logged d.trace).length)
    (he : Edge d (place t) q d') : ∃ x', Abstracts (Function.update place t q) d' x' := by
  have hme := h.threads t
  generalize hp : place t = p at he hme hcopied hsize
  have hno {c : Nat} (hc : callNo p = some c) : callNo (place t) = some c := hp ▸ hc
  cases he with
  | callGet => exact ⟨_, h.called hn rfl rfl ⟨rfl, rfl⟩⟩
  | callAdd data n readable => exact ⟨_, h.called hn rfl rfl ⟨rfl, rfl⟩⟩
  | ignore c data n none =>
      have happ : appended data n = [] := by
        rcases none with rfl | hn0
        · rfl
        · cases data with
          | none => rfl
          | some bs => rw [appended, Int.toNat_of_nonpos hn0, List.take_zero]
      refine ⟨_, h.effected hn (hno rfl) (hme c rfl) rfl rfl ?_ rfl fun c' hc' => ?_⟩
      · rw [log_addToLog, happ, List.append_nil]
      · exact ⟨(Option.some.inj hc').symm, rfl⟩
  | accept c bs n pos =>
      refine ⟨x, h.silent rfl rfl fun c' hc' => ?_⟩
      obtain rfl := Option.some.inj hc'
      exact ⟨_, _, hme c rfl, rfl⟩
  | lengthRead c dst =>
      have hdst : dst = logged d.trace ++ [0] := hcopied.2
      refine ⟨_, h.effected hn (hno rfl) (hme c rfl) rfl rfl rfl rfl fun c' hc' => ?_⟩
      refine ⟨(Option.some.inj hc').symm, ?_⟩
      show Stage.effected _ = Stage.effected _
      rw [hdst, hsize rfl]
      rfl
  | wrote c e =>
      obtain ⟨data, n, hcalled, happ⟩ := hme c rfl
      refine ⟨_, h.effected hn (hno rfl) hcalled rfl rfl ?_ (history_wrote _ _ _) fun c' hc' => ?_⟩
      · rw [logged_wrote, log_addToLog, happ]
      · exact ⟨(Option.some.inj hc').symm, rfl⟩
  | retAdd c => exact ⟨_, h.returned hn (hno rfl) (hme c rfl) rfl rfl⟩
  | retGet c dst n => exact ⟨_, h.returned hn (hno rfl) (hme c rfl) rfl rfl⟩
  | _ =>
      refine ⟨x, h.silent rfl rfl fun c' hc' => ?_⟩
      obtain rfl := Option.some.inj hc'
      exact hme _ rfl

theorem abstracts_reachable [Fintype Tid] {byte : Nat → Byte} {σ : LogState Tid}
    (h : Reachable (machine Tid) (start Tid byte) σ) : ∃ x, Abstracts σ.place σ.data x := by
  refine h.invariant (I := fun σ => ∃ x, Abstracts σ.place σ.data x) ⟨.none, ?_⟩
    fun σ τ hr ih hs => ?_
  · exact ⟨.none, rfl, rfl, nofun, fun _ _ => rfl⟩
  · obtain ⟨x, hx⟩ := ih
    cases hs with
    | spurious u live h =>
        obtain ⟨hpl, hd, -⟩ := spurious_place h
        exact ⟨x, by rwa [hpl, hd]⟩
    | exec t live h =>
        rcases exec_goes h with ⟨-, hpl, hd⟩ | ⟨p, q, hp, hg, hpl⟩
        · exact ⟨x, by rwa [hpl, hd]⟩
        · rw [hpl]
          refine abstracts_edge hx (history_reachable hr).1 (copied_reachable hr t)
            (fun hc => ?_) ?_
          · exact (rep_of_counted hr hc).1.size
          · rw [place_of_run hp]
            exact goes_edge hg

/-- To its callers the log is the sequential object: in every run there is one order of
the calls, in keeping with the order of returns and calls in time, in which each returns
what the object returns. With the mutex free the buffer holds the text of the object. -/
theorem log_linearizable [Fintype Tid] {byte : Nat → Byte} {σ : LogState Tid}
    (h : Reachable (machine Tid) (start Tid byte) σ) :
    ∃ xs, Linearizes log (history σ.data.trace) xs ∧
      (σ.owner = none → Rep σ.data.mem (log.after log.init xs)) := by
  obtain ⟨x, hx⟩ := abstracts_reachable h
  refine ⟨x.points, hx.seen ▸ hx.runs.linearizes, fun ho => ?_⟩
  have htext : log.after log.init x.points = logged σ.data.trace := hx.text
  rw [htext]
  exact ((sized_annotated h).1 ho).1

theorem log_linearizable_read : ∃ σ, Reachable (machine (Fin 2)) (start (Fin 2) fun _ => 0) σ ∧
    .ret 1 (.copied [97, 0] 1) ∈ history σ.data.trace ∧
      ∃ xs, Linearizes log (history σ.data.trace) xs ∧
        (σ.owner = none → Rep σ.data.mem (log.after log.init xs)) := by
  have h := replay_reachable (Option.some_get writeThenRead_runs).symm
  refine ⟨_, h, ?_, log_linearizable h⟩
  exact List.mem_filterMap.2 ⟨.retGet 1 [97, 0] 1, by decide +kernel, rfl⟩

end WebServer.LogObject
