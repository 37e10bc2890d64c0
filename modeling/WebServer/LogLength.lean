import WebServer.Framing
import WebServer.LogAtomic
import WebServer.LogCalls

namespace WebServer.LogLength

open Message Process Segel RequestHandle Sending Answers Framing
open Monitor ServerLog LogBuffer LogHistory LogContent LogAtomic LogCalls
open RequestQueue (Timeval ThreadsStats)

def Handed (tr : List Event) : Prop :=
  ∀ pre post c dst n, tr = pre ++ .retGet c dst n :: post → ∃ es, Saw pre c es ∧ Copy es dst n

theorem handed_snoc {tr : List Event} (h : Handed tr) {e : Event}
    (he : ∀ c dst n, e = .retGet c dst n → ∃ es, Saw tr c es ∧ Copy es dst n) :
    Handed (tr ++ [e]) := by
  intro pre post c dst n heq
  rcases snoc_split heq with ⟨post', -, htr⟩ | ⟨hlast, rfl⟩
  · exact h pre post' c dst n htr
  · exact he c dst n hlast

variable {Tid : Type} [DecidableEq Tid] [Fintype Tid] {byte : Nat → Byte} {σ : LogState Tid}

theorem handed_reachable (h : Reachable (machine Tid) (start Tid byte) σ) : Handed σ.data.trace := by
  refine h.invariant (I := fun σ => Handed σ.data.trace) (by simp [Handed, start, createLog])
    fun σ τ hr ih hs => ?_
  cases hs with
  | spurious u live h => rwa [(spurious_place h).2.1]
  | exec t live h =>
      rcases exec_goes h with ⟨-, -, hd⟩ | ⟨p, q, hp, hg, -⟩
      · rwa [hd]
      · have hcopied := copied_reachable hr t
        rw [place_of_run hp] at hcopied
        generalize τ.data = d' at hg
        cases goes_move hg with
        | inGet | ignore | accept | inAdd | unlock => exact ih
        | callGet | callAdd | wrote | retAdd => exact handed_snoc ih (by simp)
        | retGet c dst n =>
            apply handed_snoc ih
            rintro _ _ _ ⟨⟩
            exact hcopied.2

/-- `n` is the number of bytes before the terminator of the copy `dst`, and a POST
that is handed the two announces that number and sends that many bytes of `dst`,
unless a write fails. -/
structure Exact (dst : Bytes) (n : Int) : Prop where
  returned : n = dst.dropLast.length
  posted : ∀ (w : World) (arrival dispatch : Timeval) (stats : ThreadsStats),
    RequestHandle.getLog w = .returned (n, dst) w →
      (requestServePost arrival dispatch stats).Ensures w
        (fun _ w' => Sends (response (contentLines dst.dropLast.length (str "text/plain")) stats
          arrival dispatch dst.dropLast) w w')
        fun _ => .failed ∈ w.writes

theorem exact_copy {es : List (Nat × List Byte)} {dst : Bytes} {n : Int} (h : Copy es dst n) :
    Exact dst n ↔ (text es).length < 2 ^ 31 := by
  rw [h.1, h.2]
  generalize text es = bs
  constructor
  · intro h
    have hn : int32 bs.length = bs.length := by simpa using h.returned
    have hlt := int32_lt bs.length
    omega
  · intro hlt
    refine ⟨by simpa using int32_small hlt, fun w arrival dispatch stats hw => ?_⟩
    obtain ⟨-, hlog⟩ := Prod.mk.inj (Result.returned.inj hw).1
    obtain rfl : w.os.log = bs := List.append_cancel_right hlog
    apply (@requestServePost_ensures w True arrival dispatch stats fun _ => hlt).mono _ fun _ hd => hd.2 trivial
    intro _ w' hs
    rw [Reply.lines, log_body _ hlt, int32_small hlt] at hs
    rwa [List.dropLast_concat]

/-- The length is exact up to 2^31 - 1 bytes, and no further. -/
theorem length_exact_iff (h : Reachable (machine Tid) (start Tid byte) σ) {pre post : List Event}
    {c : Nat} {dst : Bytes} {n : Int} (hret : σ.data.trace = pre ++ .retGet c dst n :: post) :
    ∃ es, Saw pre c es ∧ dst = text es ++ [0] ∧ (Exact dst n ↔ (text es).length < 2 ^ 31) := by
  obtain ⟨es, hsaw, hcopy⟩ := handed_reachable h pre post c dst n hret
  exact ⟨es, hsaw, hcopy.1, exact_copy hcopy⟩

theorem length_exact_read : ∃ σ pre post, Reachable (machine (Fin 2)) (start (Fin 2) fun _ => 0) σ ∧
    σ.data.trace = pre ++ .retGet 1 [97, 0] 1 :: post ∧
    ∃ es, Saw pre 1 es ∧ [97, 0] = text es ++ [0] ∧ (Exact [97, 0] 1 ↔ (text es).length < 2 ^ 31) := by
  have h := replay_reachable (Option.some_get writeThenRead_runs).symm
  obtain ⟨pre, post, htrace⟩ := List.append_of_mem (a := .retGet 1 [97, 0] 1)
    (l := (((machine (Fin 2)).replay writeThenRead (start (Fin 2) fun _ => 0)).get
      writeThenRead_runs).data.trace) (by decide +kernel)
  exact ⟨_, pre, post, h, htrace, length_exact_iff h htrace⟩

def entry : Bytes := statsBlock ⟨7, 1, 0, 0, 1⟩ ⟨1735689600, 0⟩ ⟨0, 25⟩

theorem entry_length : entry.length = 184 := by decide +kernel

theorem entries_length (k : Nat) : (List.replicate k entry).flatten.length = 184 * k := by
  induction k with
  | zero => rfl
  | succ k ih => rw [List.replicate_succ, List.flatten_cons, List.length_append, ih, entry_length]; omega

theorem filled {k : Nat} (hk : 184 * k < 2 ^ 62) : ∃ d,
    Path (machine Unit) () .idle (createLog byte) .idle d ∧ Calm d ∧
      logged d.trace = (List.replicate k entry).flatten := by
  have hlen : ∀ bs ∈ List.replicate k entry, 0 < bs.length ∧ bs.length < 2 ^ 31 := by
    intro bs hbs
    obtain rfl := List.eq_of_mem_replicate hbs
    rw [entry_length]
    decide
  obtain ⟨d, hpath, hcalm, hlog⟩ := @path_adds Unit _ byte () (List.replicate k entry) hlen
    (by rw [entries_length]; omega)
  exact ⟨d, hpath, hcalm, by rw [logged_eq_flatten, hlog]⟩

/-- After 11671107 entries of 184 bytes the length is a negative `int`. -/
theorem length_truncated : ∃ σ : LogState Unit, Reachable (machine Unit) (start Unit fun _ => 0) σ ∧
    ∃ c dst, .retGet c dst (-2147483608) ∈ σ.data.trace ∧
      dst = (List.replicate 11671107 entry).flatten ++ [0] ∧ ¬ Exact dst (-2147483608) := by
  obtain ⟨d, hpath, hcalm, hlog⟩ := @filled (fun _ => 0) 11671107 (by decide)
  have hsize : d.log.size = 184 * 11671107 := by
    rw [← entries_length, ← hlog]
    exact (path_rep hpath).1.size
  obtain ⟨d', dst, hget, htrace⟩ := @path_get Unit () d hcalm (by rw [hsize]; decide)
  have hreach := path_reachable (hpath.trans hget)
  have hn : int32 (184 * 11671107 : Nat) = -2147483608 := by decide +kernel
  have hret : d'.trace =
      (d.trace ++ [.callGet d.calls]) ++ [.retGet d.calls dst (-2147483608)] := by
    rw [htrace, hsize, hn]
  obtain ⟨es, hsaw, hcopy⟩ := handed_reachable hreach _ [] _ _ _ hret
  have htext : text es = (List.replicate 11671107 entry).flatten := by
    have hle : es <+: entries d.trace := by
      have h := hsaw.1
      rwa [entries_append, show entries [.callGet d.calls] = [] from rfl, List.append_nil] at h
    have heq : es = entries d.trace := hle.eq_of_length_le (hsaw.2 _ [] rfl).length_le
    rw [heq, ← hlog, logged]
  refine ⟨_, hreach, d.calls, dst, ?_, by rw [hcopy.1, htext], ?_⟩
  · exact hret ▸ List.mem_append_right _ (List.mem_singleton.2 rfl)
  · rw [exact_copy hcopy, htext, entries_length]
    omega

end WebServer.LogLength
