import WebServer.LogContent
import WebServer.LogHistory

namespace WebServer.LogAtomic

open Monitor ServerLog LogLock LogBuffer LogContent LogHistory

variable {Tid : Type} [DecidableEq Tid] {byte : Nat → Byte} {σ : LogState Tid}

theorem run_of_inWrite {t : Tid} (h : Reachable (machine Tid) (start Tid byte) σ)
    (ht : inWrite (σ.place t) = true) : σ.phase t = .run (σ.place t) := by
  cases hφ : σ.phase t with
  | run p => rw [place_of_run hφ]
  | asleep c q | woken q =>
      have hpl : σ.place t = q := by rw [State.place, hφ]; rfl
      rw [hpl] at ht
      rcases waiter_place h (show (∃ c, σ.phase t = .asleep c q) ∨ σ.phase t = .woken q by simp [hφ]) with ⟨k, rfl⟩ | ⟨k, e, rfl⟩ <;>
        simp [inWrite] at ht

theorem one_writer (h : Reachable (machine Tid) (start Tid byte) σ) {t u : Tid}
    (ht : inWrite (σ.place t) = true) (hu : inWrite (σ.place u) = true) : t = u := by
  have owns {v} (hv : inWrite (σ.place v) = true) : σ.owner = some v := by
    refine ((guarded h).1 v).1 ?_
    rw [run_of_inWrite h hv]
    exact holds_of_inWrite hv
  simpa [owns ht] using owns hu

theorem readers_pos [Fintype Tid] (h : Reachable (machine Tid) (start Tid byte) σ) {t : Tid}
    (ht : counted (σ.place t) = true) : 0 < σ.data.log.readers := by
  rw [readers_eq h]
  exact Int.natCast_pos.2 (countIn_pos.2 ⟨t, ht⟩)

theorem counted_of_inRead {p : Pc} (h : inRead p = true) : counted p = true := by
  cases p with
  | get c s => cases s <;> simp_all [inRead, counted]
  | _ => simp [inRead] at h

theorem no_read_in_write [Fintype Tid] (h : Reachable (machine Tid) (start Tid byte) σ) {t u : Tid}
    (ht : inRead (σ.place t) = true) : inWrite (σ.place u) = false := by
  by_contra hu
  rw [Bool.not_eq_false] at hu
  have hpos := readers_pos h (counted_of_inRead ht)
  have hrun := run_of_inWrite h hu
  generalize σ.place u = p at hu hrun
  cases p with
  | add c e s =>
      have ha := (annotated h).2 u _ hrun (holds_of_inWrite hu)
      have hr : σ.data.log.readers ≤ 0 := by
        cases s <;> first | exact ha.2 | simp [inWrite] at hu
      omega
  | _ => simp [inWrite] at hu

theorem rep_of_counted [Fintype Tid] (h : Reachable (machine Tid) (start Tid byte) σ) {t : Tid}
    (ht : counted (σ.place t) = true) :
    Rep σ.data.mem (logged σ.data.trace) ∧ Doubled σ.data.log.capacity := by
  have hc := sized_annotated h
  cases ho : σ.owner with
  | none => exact hc.1 ho
  | some u =>
      have hu := ((guarded h).1 u).2 ho
      cases hφ : σ.phase u with
      | asleep c q | woken q => rw [hφ] at hu; simp [Phase.holds] at hu
      | run p =>
          rw [hφ] at hu
          have hcp := hc.2 u p hφ hu
          have ha := (annotated h).2 u p hφ hu
          have hpos := readers_pos h ht
          cases p with
          | idle | addTest | addRet => simp [Phase.holds, holds] at hu
          | get c s => exact hcp
          | add c e s =>
              cases s with
              | lock => simp [Phase.holds, holds, AddPc.holds] at hu
              | incWaiting | check | wait | testWaiting | signal | broadcast | unlock | decWaiting
              | setWriter =>
                  exact ⟨hcp.content, hcp.capacity⟩
              | _ => have := ha.2; omega

theorem frozen [Fintype Tid] (h : Reachable (machine Tid) (start Tid byte) σ) {t u : Tid}
    (hu : counted (σ.place u) = true) {p q : Pc} (hp : σ.phase t = .run p) {d : Shared}
    (hg : (code p).Goes σ.data q d) :
    d.log.buffer = σ.data.log.buffer ∧ logged d.trace = logged σ.data.trace := by
  have hpos := readers_pos h hu
  have hout := (annotated h).2 t p hp
  cases goes_edge hg with
  | bufferSet | wrote =>
      have hr : σ.data.log.readers ≤ 0 := (hout rfl).2
      omega
  | callGet | callAdd | retAdd | retGet => exact ⟨rfl, logged_other _ rfl⟩
  | _ => exact ⟨rfl, rfl⟩

def Snapshot (es : List (Nat × List Byte)) (dst : List Byte) (n : Int) : Prop :=
  dst = text es ++ [0] ∧ n = (text es).length

/-- Call `c` saw the entries `es`, at some time since it was made. -/
def Saw (tr : List Event) (c : Nat) (es : List (Nat × List Byte)) : Prop :=
  es <+: entries tr ∧ ∀ before after, tr = before ++ .callGet c :: after → entries before <+: es

def GetPc.seen (d : Shared) (c : Nat) : GetPc → Prop
  | .lock | .check | .wait | .incReaders | .unlock | .malloc => True
  | .memcpy cap => cap = (logged d.trace).length + 1
  | .copying cap src n i dst => cap = (logged d.trace).length + 1 ∧ src = d.log.buffer ∧
      n = (logged d.trace).length + 1 ∧ i ≤ n ∧ dst = (logged d.trace ++ [0]).take i
  | .result dst => dst = logged d.trace ++ [0]
  | .endLock dst n | .decReaders dst n | .testReaders dst n | .signal dst n | .endUnlock dst n
  | .ret dst n => ∃ es, Saw d.trace c es ∧ Snapshot es dst n

def seen (d : Shared) : Pc → Prop
  | .get c s => .callGet c ∈ d.trace ∧ GetPc.seen d c s
  | _ => True

theorem entries_mono {tr tr' : List Event} (h : tr <+: tr') : entries tr <+: entries tr' := by
  obtain ⟨rest, rfl⟩ := h
  rw [entries_append]
  exact List.prefix_append _ _

theorem Saw.append {tr : List Event} {c : Nat} {es : List (Nat × List Byte)} (h : Saw tr c es)
    {e : Event} (he : Event.number e ≠ c) : Saw (tr ++ [e]) c es := by
  refine ⟨h.1.trans (entries_mono (List.prefix_append _ _)), fun before after hs => ?_⟩
  rcases snoc_split hs with ⟨after', -, htr⟩ | ⟨rfl, -⟩
  · exact h.2 before after' htr
  · exact absurd rfl he

theorem saw_now {tr : List Event} {c : Nat} : Saw tr c (entries tr) := by
  refine ⟨List.prefix_rfl, fun before after h => ?_⟩
  rw [h]
  exact entries_mono (List.prefix_append _ _)

/-- What `get_log` hands back of the entries `es`: their text with its terminator, and
its length as far as an `int` can say it. -/
def Copy (es : List (Nat × List Byte)) (dst : List Byte) (n : Int) : Prop :=
  dst = text es ++ [0] ∧ n = int32 (text es).length

def GetPc.copied (d : Shared) (c : Nat) : GetPc → Prop
  | .lock | .check | .wait | .incReaders | .unlock | .malloc => True
  | .memcpy cap => cap = (logged d.trace).length + 1
  | .copying cap src n i dst => cap = (logged d.trace).length + 1 ∧ src = d.log.buffer ∧
      n = (logged d.trace).length + 1 ∧ i ≤ n ∧ dst = (logged d.trace ++ [0]).take i
  | .result dst => dst = logged d.trace ++ [0]
  | .endLock dst n | .decReaders dst n | .testReaders dst n | .signal dst n | .endUnlock dst n
  | .ret dst n => ∃ es, Saw d.trace c es ∧ Copy es dst n

def copied (d : Shared) : Pc → Prop
  | .get c s => .callGet c ∈ d.trace ∧ GetPc.copied d c s
  | _ => True

theorem copied_other {d d' : Shared} {p : Pc} (h : copied d p)
    (hc : counted p = true → d'.log.buffer = d.log.buffer ∧ logged d'.trace = logged d.trace)
    (ht : d'.trace = d.trace ∨ ∃ e, d'.trace = d.trace ++ [e] ∧
      ∀ c, callNo p = some c → Event.number e ≠ c) : copied d' p := by
  cases p with
  | idle | addTest | add | addRet => trivial
  | get c s =>
      obtain ⟨hm, hs⟩ := h
      have hsaw {es} (h : Saw d.trace c es) : Saw d'.trace c es := by
        rcases ht with ht | ⟨e, ht, he⟩
        · rwa [ht]
        · rw [ht]; exact h.append (he c rfl)
      refine ⟨?_, ?_⟩
      · rcases ht with ht | ⟨e, ht, -⟩
        · rwa [ht]
        · rw [ht]; exact List.mem_append_left _ hm
      · cases s with
        | lock | check | wait | incReaders | unlock | malloc => trivial
        | memcpy | copying | result =>
            obtain ⟨hb, hl⟩ := hc rfl
            simpa only [GetPc.copied, hb, hl] using hs
        | _ =>
            obtain ⟨es, hes, hsnap⟩ := hs
            exact ⟨es, hsaw hes, hsnap⟩

theorem move_trace {p q : Pc} {d d' : Shared} (hm : Move p d q d') : d'.trace = d.trace ∨
    ∃ e, d'.trace = d.trace ++ [e] ∧ (callNo p = some (Event.number e) ∨ Event.number e = d.calls) := by
  cases hm with
  | callGet | callAdd => exact .inr ⟨_, rfl, .inr rfl⟩
  | inGet | ignore | accept | inAdd | unlock => exact .inl rfl
  | retGet | wrote | retAdd => exact .inr ⟨_, rfl, .inl rfl⟩

theorem trace_grows {τ : LogState Tid} (h : Step (machine Tid) σ τ) :
    σ.data.trace <+: τ.data.trace := by
  cases h with
  | exec t live h =>
      rcases exec_goes h with ⟨-, -, hd⟩ | ⟨p, q, hp, hg, -⟩
      · rw [hd]
      · rcases move_trace (goes_move hg) with ht | ⟨e, ht, -⟩
        · rw [ht]
        · rw [ht]; exact List.prefix_append _ _
  | spurious u live h => rw [(spurious_place h).2.1]

theorem bounded_of_prefix {tr tr' : List Event} (h : tr <+: tr') (hb : Bounded tr') : Bounded tr := by
  obtain ⟨rest, rfl⟩ := h
  exact hb.of_append

theorem copied_own {p q : Pc} {d d' : Shared}
    (hrep : counted p = true → Rep d.mem (logged d.trace) ∧ Doubled d.log.capacity)
    (h : copied d p) (hg : (code p).Goes d q d') : copied d' q := by
  have hsize (hc : counted p = true) : sizeT (d.log.size + 1) = (logged d.trace).length + 1 := by
    have hs : d.log.size = (logged d.trace).length := (hrep hc).1.size
    have hlt := Rep.length_lt (hrep hc).1 (hrep hc).2
    rw [sizeT_small (by omega), hs]
  cases goes_edge hg with
  | callGet => exact ⟨by simp, trivial⟩
  | readHeld | readFree => exact ⟨h.1, trivial⟩
  | readCounted => exact ⟨h.1, trivial⟩
  | allocated c => exact ⟨h.1, hsize rfl⟩
  | copyStarts c cap => exact ⟨h.1, h.2, rfl, hsize rfl, Nat.zero_le _, rfl⟩
  | byteRead c cap src n i dst other more =>
      obtain ⟨hm, rfl, rfl, rfl, hi, rfl⟩ := h
      have hload := (hrep rfl).1.block.load (i := i) (by simpa using more) other
      simp only [Shared.log, if_pos more, hload]
      refine ⟨hm, rfl, rfl, rfl, by omega, ?_⟩
      exact (List.take_succ_eq_append_getElem (by simpa using more)).symm
  | copyDone c cap src n i dst done =>
      obtain ⟨hm, rfl, rfl, rfl, hi, rfl⟩ := h
      exact ⟨hm, List.take_of_length_le (by simp; omega)⟩
  | lengthRead c dst =>
      refine ⟨h.1, entries d.trace, saw_now, h.2, ?_⟩
      simp only [Shared.log, (hrep rfl).1.size, logged]
  | readLocked | readWoken | readUnlocked | endReadLocked | readUncounted | lastReader
  | otherReaders | readSignalled | endReadUnlocked => exact h
  | _ => trivial

theorem copied_reachable [Fintype Tid] (h : Reachable (machine Tid) (start Tid byte) σ) (t : Tid) :
    copied σ.data (σ.place t) := by
  revert t
  refine h.invariant (I := fun σ => ∀ t, copied σ.data (σ.place t))
    (fun t => trivial) fun σ τ hr ih hs u => ?_
  cases hs with
  | spurious v live h =>
      obtain ⟨hpl, hd, -⟩ := spurious_place h
      rw [hpl, hd]; exact ih u
  | exec t live h =>
      rcases exec_goes h with ⟨-, hpl, hd⟩ | ⟨p, q, hp, hg, hpl⟩
      · rw [hpl, hd]; exact ih u
      · have hp' := place_of_run hp
        rw [hpl]
        by_cases hut : u = t
        · subst u
          rw [Function.update_self]
          exact copied_own (fun hc => rep_of_counted hr (t := t) (by rwa [hp'])) (hp' ▸ ih t) hg
        · rw [Function.update_of_ne hut]
          refine copied_other (ih u) (fun hc => frozen hr hc hp hg) ?_
          obtain ⟨hn, -⟩ := history_reachable hr
          rcases move_trace (goes_move hg) with ht | ⟨e, ht, he⟩
          · exact .inl ht
          · refine .inr ⟨e, ht, fun c hc => ?_⟩
            rintro rfl
            rcases he with he | he
            · exact hut (hn.distinct u t _ hc (hp' ▸ he))
            · have := hn.below u _ hc; omega

theorem text_mono {es es' : List (Nat × List Byte)} (h : es <+: es') : text es <+: text es' := by
  obtain ⟨rest, rfl⟩ := h
  rw [text, text, List.flatMap_append]
  exact List.prefix_append _ _

theorem seen_reachable [Fintype Tid] (h : Reachable (machine Tid) (start Tid byte) σ)
    (hb : Bounded σ.data.trace) (t : Tid) : seen σ.data (σ.place t) := by
  have hc := copied_reachable h t
  cases hp : σ.place t with
  | idle | addTest | add | addRet => trivial
  | get c s =>
      rw [hp] at hc
      refine ⟨hc.1, ?_⟩
      have hs := hc.2
      cases s with
      | endLock | decReaders | testReaders | signal | endUnlock | ret =>
          obtain ⟨es, hsaw, hdst, hn⟩ := hs
          have hle : (text es).length ≤ (logged σ.data.trace).length :=
            (text_mono hsaw.1).length_le
          have hb : (logged σ.data.trace).length < 2 ^ 31 := hb
          have hint : int32 ((text es).length : Int) = (text es).length :=
            Int.bmod_eq_of_le (by omega) (by omega)
          exact ⟨es, hsaw, hdst, hn.trans hint⟩
      | _ => exact hs

/-- Every `get_log` that returned handed back the data of a prefix of the write
sections. The prefix holds every entry whose `add_to_log` had returned before
the call, and what every `get_log` that had returned by then handed back. -/
def Atomic (tr : List Event) : Prop :=
  ∀ pre post c dst n, tr = pre ++ .retGet c dst n :: post →
    ∃ es before after, Snapshot es dst n ∧ es <+: entries pre ∧ pre = before ++ .callGet c :: after ∧
      (∀ k bs m, .retAdd k ∈ before → .callAdd k (some bs) m ∈ pre → 0 < m.1 →
        (k, (Entry.take bs m).bytes) ∈ es) ∧
      ∀ c' dst' n', .retGet c' dst' n' ∈ before → ∃ es', Snapshot es' dst' n' ∧ es' <+: es

omit [DecidableEq Tid] in
theorem atomic_retGet {place : Tid → Pc} {tr : List Event} (h : Atomic tr) (hh : History place tr)
    {c : Nat} {dst : List Byte} {n : Int} (hc : .callGet c ∈ tr)
    (hs : ∃ es, Saw tr c es ∧ Snapshot es dst n) : Atomic (tr ++ [.retGet c dst n]) := by
  intro pre post c' dst' n' heq
  rcases snoc_split heq with ⟨post', -, htr⟩ | ⟨he, rfl⟩
  · exact h pre post' c' dst' n' htr
  · obtain ⟨rfl, rfl, rfl⟩ := Event.retGet.inj he
    obtain ⟨es, hsaw, hsnap⟩ := hs
    obtain ⟨before, after, hba⟩ := List.append_of_mem hc
    have hbefore := hsaw.2 before after hba
    refine ⟨es, before, after, hsnap, hsaw.1, hba, fun k bs m hk hcall hm => ?_, fun k dst' n' hk => ?_⟩
    · obtain ⟨pre', post', rfl⟩ := List.append_of_mem hk
      have hin := hh.returned pre' _ k (by rw [hba, List.append_assoc]; rfl) bs m hcall hm
      exact hbefore.subset ((entries_mono (List.prefix_append _ _)).subset hin)
    · obtain ⟨pre', post', rfl⟩ := List.append_of_mem hk
      obtain ⟨es', -, -, hsnap', hes', -⟩ := h pre' _ k dst' n' (by rw [hba, List.append_assoc]; rfl)
      exact ⟨es', hsnap', (hes'.trans (entries_mono (List.prefix_append _ _))).trans hbefore⟩

theorem atomic_snoc {tr : List Event} (h : Atomic tr) {e : Event}
    (he : ∀ c dst n, e ≠ .retGet c dst n) : Atomic (tr ++ [e]) := by
  intro pre post c dst n heq
  rcases snoc_split heq with ⟨post', -, htr⟩ | ⟨rfl, -⟩
  · exact h pre post' c dst n htr
  · exact absurd rfl (he c dst n)

theorem atomic_reachable [Fintype Tid] (h : Reachable (machine Tid) (start Tid byte) σ)
    (hb : Bounded σ.data.trace) : Atomic σ.data.trace := by
  refine h.invariant (I := fun σ => Bounded σ.data.trace → Atomic σ.data.trace)
    (fun _ => by simp [Atomic, start, createLog]) (fun σ τ hr ih hs hb => ?_) hb
  have hb := bounded_of_prefix (trace_grows hs) hb
  have ih := ih hb
  cases hs with
  | spurious v live h => rw [(spurious_place h).2.1]; exact ih
  | exec t live h =>
      rcases exec_goes h with ⟨-, -, hd⟩ | ⟨p, q, hp, hg, -⟩
      · rw [hd]; exact ih
      · have hseen := seen_reachable hr hb t
        rw [place_of_run hp] at hseen
        obtain ⟨-, hh⟩ := history_reachable hr
        generalize τ.data = d' at hg
        cases goes_move hg with
        | inGet | ignore | accept | inAdd | unlock => exact ih
        | callGet | callAdd | wrote | retAdd => exact atomic_snoc ih (by simp)
        | retGet c dst n => exact atomic_retGet ih hh hseen.1 hseen.2

/-- Readers and writers exclude each other, and the log is atomic. -/
theorem log_atomic [Fintype Tid] (h : Reachable (machine Tid) (start Tid byte) σ)
    (hb : Bounded σ.data.trace) :
    (∀ t u, inRead (σ.place t) = true → inWrite (σ.place u) = false) ∧
    (∀ t u, inWrite (σ.place t) = true → inWrite (σ.place u) = true → t = u) ∧
    ((entries σ.data.trace).map Prod.fst).Nodup ∧
    (∀ k e, (k, e) ∈ entries σ.data.trace →
      ∃ bs n, .callAdd k (some bs) n ∈ σ.data.trace ∧ 0 < n.1 ∧ e = (Entry.take bs n).bytes) ∧
    Atomic σ.data.trace := by
  obtain ⟨-, hh⟩ := history_reachable h
  exact ⟨fun _ _ => no_read_in_write h, fun _ _ => one_writer h, hh.nodup, hh.justified,
    atomic_reachable h hb⟩

def writeThenRead : List (Fin 2 × Choice) :=
  let go (t : Fin 2) (n : Nat) : List (Fin 2 × Choice) := List.replicate n (t, .junk fun _ => 0)
  (0, .addToLog (some [97]) ⟨1, one_fits⟩) :: go 0 17 ++ (1, .getLog) :: go 1 16

theorem writeThenRead_runs :
    ((machine (Fin 2)).replay writeThenRead (start (Fin 2) fun _ => 0)).isSome = true := by
  decide +kernel

theorem log_atomic_read : ∃ σ, Reachable (machine (Fin 2)) (start (Fin 2) fun _ => 0) σ ∧
    .retGet 1 [97, 0] 1 ∈ σ.data.trace ∧ Atomic σ.data.trace := by
  have h := replay_reachable (Option.some_get writeThenRead_runs).symm
  refine ⟨_, h, by decide +kernel, ?_⟩
  exact (log_atomic h (by unfold Bounded; decide +kernel)).2.2.2.2

end WebServer.LogAtomic
