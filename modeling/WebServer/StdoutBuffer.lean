import WebServer.Framing
import WebServer.RelatedRequests

namespace WebServer.StdoutBuffer

open Message Process Segel RequestHandle Sending Answers HeaderReading Framing RelatedRequests
open RequestQueue (Timeval ThreadsStats)

/-- A request, and the worker that handles it. -/
structure Visit where
  worker : Nat
  buf : Bytes
  old : Locals
  arrival : Timeval
  dispatch : Timeval
  os : Os
  input : List ReadAnswer

/-- What the server keeps between requests: its buffer of standard output, the log,
and the counters of the workers. -/
structure Kept where
  stdout : Bytes
  logged : List Bytes
  stats : Nat → ThreadsStats

def Kept.fresh : Kept := ⟨[], [], fun i => ⟨i + 1, 0, 0, 0, 0⟩⟩

variable {v v' : Visit} {k k' : Kept} {fuel : Nat} {writes : List WriteAnswer}

def Visit.world (v : Visit) (writes : List WriteAnswer) (k : Kept) : World :=
  ⟨{ v.os with log := k.logged.flatten }, v.input, writes, [], k.stdout, [], k.logged⟩

def Visit.run (v : Visit) (fuel : Nat) (writes : List WriteAnswer) (k : Kept) :
    Result World ThreadsStats :=
  requestHandle fuel v.buf v.old v.arrival v.dispatch (k.stats v.worker) (v.world writes k)

inductive Follows : Kept → List Visit → Kept → Prop
  | nil (k : Kept) : Follows k [] k
  | cons {k : Kept} {v : Visit} {fuel : Nat} {writes : List WriteAnswer} {stats' : ThreadsStats}
      {w' : World} {vs : List Visit} {k' : Kept} (run : v.run fuel writes k = .returned stats' w')
      (rest : Follows ⟨w'.stdout, w'.logged, Function.update k.stats v.worker stats'⟩ vs k') :
      Follows k (v :: vs) k'

def sent {α : Type} : Result World α → Option Bytes
  | .returned _ w | .exited w => some w.sent
  | .unfinished => none

/-- The request gets an error response. -/
def Visit.Refused (v : Visit) : Prop :=
  ∃ cause errnum shortmsg longmsg,
    replyTo v.buf v.old (v.world [] .fresh) = some (.error cause errnum shortmsg longmsg)

/-- Two histories that differ in the error responses given to others. -/
def Similar : List Visit → List Visit → Prop :=
  List.Forall₂ fun v v' => v = v' ∨ v.worker = v'.worker ∧ v.os = v'.os ∧ v.Refused ∧ v'.Refused

/-- With the same counters and log, the client is sent the same bytes after either
history. -/
def Visit.Private (v : Visit) : Prop :=
  ∀ vs vs' k k', Similar vs vs' → Follows .fresh vs k → Follows .fresh vs' k' →
    k.stats = k'.stats → k.logged = k'.logged →
    ∀ fuel writes, sent (v.run fuel writes k) = sent (v.run fuel writes k')

/-- In the child of a request for a CGI program, `execve` fails with the standard
output on the connection. -/
structure ExecFails (os : Os) (target : Target) : Prop where
  reply : answerGet os target = .program target.filename target.cgiargs
  fork : os.fork ≠ none
  setenv : os.setenvOk = true
  dup2 : os.dup2Ok = true
  execve : os.execve target.filename target.cgiargs = none

def Visit.Leaks (v : Visit) : Prop :=
  ∃ fuel target, Targets fuel v.buf v.old (v.world [] .fresh) target ∧ ExecFails v.os target

structure SameButStdout (os : Os) (w w' : World) : Prop where
  os_eq : w.os = os
  world : ∃ stdout, w' = { w with stdout := stdout }

theorem check_respects {os : Os} (call : Os → Bool) : (check call).Respects (SameButStdout os) := by
  rintro w _ ⟨rfl, stdout, rfl⟩
  simp only [check]
  split
  · exact .returned _ ⟨rfl, _, rfl⟩
  · exact .exited ⟨rfl, _, rfl⟩

theorem stdout_calls (os : Os) : Calls os (SameButStdout os) where
  os_eq _ _ h := h.os_eq
  readline rio buf maxlen := by
    rintro w _ ⟨rfl, stdout, rfl⟩
    simp only [RioReadlineb]
    split
    · exact .returned _ ⟨rfl, _, rfl⟩
    · exact .returned _ ⟨rfl, _, rfl⟩
    · exact .exited ⟨rfl, _, rfl⟩
  writen usrbuf n := by
    rintro w _ ⟨rfl, stdout, rfl⟩
    simp only [RioWriten]
    generalize (if n ≤ usrbuf.length then [] else [WriteAnswer.failed]) = fault
    split
    · exact .returned _ ⟨rfl, _, rfl⟩
    · exact .exited ⟨rfl, _, rfl⟩
  printf bs := by
    rintro w _ ⟨rfl, stdout, rfl⟩
    exact .returned _ ⟨rfl, _, rfl⟩
  close := check_respects _
  mmap len fd := by
    rintro w _ ⟨rfl, stdout, rfl⟩
    simp only [Mmap]
    split
    · exact .returned _ ⟨rfl, _, rfl⟩
    · exact .exited ⟨rfl, _, rfl⟩
  munmap := check_respects _
  waitpid := check_respects _
  getLog := by
    rintro w _ ⟨rfl, stdout, rfl⟩
    exact .returned _ ⟨rfl, _, rfl⟩
  addToLog data len := by
    rintro w _ ⟨rfl, stdout, rfl⟩
    simp only [addToLog]
    split
    · exact .returned _ ⟨rfl, _, rfl⟩
    · exact .returned _ ⟨rfl, _, rfl⟩

theorem fork_respects {os : Os} {filename cgiargs : Bytes}
    (h : ¬ (os.fork ≠ none ∧ os.setenvOk = true ∧ os.dup2Ok = true ∧
      os.execve filename cgiargs = none)) : (Fork do
    Setenv cgiargs
    Dup2
    Execve filename).Respects (SameButStdout os) := by
  rintro w _ ⟨rfl, stdout, rfl⟩
  obtain ⟨v, hv, hs⟩ := child_exits (w := w) filename cgiargs
  obtain ⟨v', hv', hs'⟩ := child_exits (w := { w with stdout := stdout }) filename cgiargs
  simp only [Fork, hv, hv', hs, hs']
  cases hf : w.os.fork with
  | none => exact .exited ⟨rfl, _, rfl⟩
  | some pid =>
      have hout : programOutput w.os stdout filename cgiargs =
          programOutput w.os w.stdout filename cgiargs := by
        rw [programOutput, programOutput]
        by_cases hok : w.os.setenvOk = true ∧ w.os.dup2Ok = true
        · have he : w.os.execve filename cgiargs ≠ none := fun he =>
            h ⟨by simp [hf], hok.1, hok.2, he⟩
          obtain ⟨output, he⟩ := Option.ne_none_iff_exists'.1 he
          rw [if_pos hok, if_pos hok, he]
          rfl
        · rw [if_neg hok, if_neg hok]
      dsimp only
      rw [hout]
      exact .returned _ ⟨rfl, _, rfl⟩

theorem stdout_reaches {os : Os} {target : Target} (h : ¬ ExecFails os target) :
    Reaches os (SameButStdout os) target where
  stat := by
    rintro w _ ⟨rfl, stdout, rfl⟩
    exact .returned _ ⟨rfl, _, rfl⟩
  openFd _ := by
    rintro w _ ⟨rfl, stdout, rfl⟩
    simp only [Open]
    split
    · exact .returned _ ⟨rfl, _, rfl⟩
    · exact .exited ⟨rfl, _, rfl⟩
  fork hp := fork_respects fun ⟨hf, hs, hd, he⟩ => h ⟨hp, hf, hs, hd, he⟩

theorem Result.Related.sent_eq {α : Type} {os : Os} {r r' : Result World α}
    (h : r.Related (SameButStdout os) r') : sent r = sent r' := by
  cases h with
  | returned a h | exited h =>
    obtain ⟨-, stdout, rfl⟩ := h
    rfl
  | unfinished => rfl

theorem private_of_not_leaks (h : ¬ v.Leaks) : v.Private := by
  intro vs vs' k k' _ _ _ hstats hlogged fuel writes
  have hw : SameButStdout (v.world writes k).os (v.world writes k) (v.world writes k') := by
    refine ⟨rfl, k'.stdout, ?_⟩
    simp [Visit.world, hlogged]
  rw [Visit.run, Visit.run, ← hstats]
  apply Result.Related.sent_eq (requestHandle_related (stdout_calls _) hw _)
  intro target ht
  apply stdout_reaches
  intro he
  exact h ⟨fuel, target, ht.of_input rfl, he.reply, he.fork, he.setenv, he.dup2, he.execve⟩

section

variable {w : World} {arrival dispatch : Timeval} {stats : ThreadsStats}

theorem send_all (hw : w.writes = []) (bs : Bytes) :
    RioWriten bs bs.length w = .returned () { w with sent := w.sent ++ bs } := by
  have hall : rioWriten [] bs = (bs, true, []) := by cases bs <;> rfl
  simp [RioWriten, hw, hall]

theorem send_print {β : Type} (hw : w.writes = []) (bs : Bytes) (x : Sys β) :
    (do RioWriten bs bs.length; printf bs; x) w =
      x { w with sent := w.sent ++ bs, stdout := w.stdout ++ bs } := by
  rw [bind_apply, send_all hw]
  rfl

theorem requestError_prints (hw : w.writes = []) (cause errnum shortmsg longmsg : Bytes) :
    ∃ page, page = response (errorLines errnum shortmsg (errorPage cause errnum shortmsg longmsg))
        stats arrival dispatch (errorPage cause errnum shortmsg longmsg) ∧
      requestError cause errnum shortmsg longmsg arrival dispatch stats w =
        .returned () { w with sent := w.sent ++ page, stdout := w.stdout ++ page } := by
  have hcrlf : str "\r\n" = crlf := by decide
  have htype : str "Content-Type: text/html\r\n" = str "Content-Type: text/html" ++ crlf := by
    decide
  refine ⟨_, rfl, ?_⟩
  simp only [requestError, ← errorPage.eq_1]
  generalize errorPage cause errnum shortmsg longmsg = page
  have hlast := appendStats_render [str "Content-Length: " ++ decimal page.length] stats
    arrival dispatch
  rw [render, List.flatMap_singleton] at hlast
  rw [hcrlf, htype, hlast, send_print hw, send_print, send_print, bind_apply, send_all]
  · simp [printf, response, errorLines, render]
  all_goals exact hw

theorem sent_bind {α β : Type} {x : Sys α} {f : α → Sys β}
    (hf : ∀ a w', sent (f a w') = some w'.sent) : sent ((x >>= f) w) = sent (x w) := by
  rw [bind_apply]
  cases x w with
  | returned a w' => exact hf a w'
  | exited w' | unfinished => rfl

theorem requestServeDynamic_sent (hw : w.writes = []) (hf : w.os.fork ≠ none)
    (filename cgiargs : Bytes) :
    sent (requestServeDynamic filename cgiargs arrival dispatch stats w) =
      some (w.sent ++ appendStats (render okLines) stats arrival dispatch ++
        programOutput w.os w.stdout filename cgiargs) := by
  simp only [requestServeDynamic, okLines_render]
  rw [bind_apply, send_all hw]
  dsimp only
  obtain ⟨pid, hpid⟩ := Option.ne_none_iff_exists'.1 hf
  generalize appendStats (render okLines) stats arrival dispatch = header
  obtain ⟨v, hv, hs⟩ := child_exits (w := { w with sent := w.sent ++ header }) filename cgiargs
  rw [sent_bind fun _ w' => ?_]
  · simp only [Fork, hpid, hv, hs]
    rfl
  · simp only [WaitPid, check]
    split <;> rfl

theorem answerGet_program {os : Os} {target : Target}
    (h : answerGet os target = .program target.filename target.cgiargs) :
    ∃ sbuf, os.stat target.filename = some sbuf ∧ ¬ target.isStatic = true ∧
      ¬ (¬ sbuf.isReg = true ∨ ¬ sbuf.ixusr = true) := by
  rw [answerGet] at h
  cases hs : os.stat target.filename with
  | none => simp [hs] at h
  | some sbuf =>
      simp only [hs] at h
      by_cases hst : target.isStatic = true
      · rw [if_pos hst] at h
        split at h
        · cases h
        · split at h <;> cases h
      · rw [if_neg hst] at h
        split at h
        · cases h
        · next hmode => exact ⟨sbuf, rfl, hst, hmode⟩

theorem requestGet_sent {target : Target} (hw : w.writes = []) (he : ExecFails w.os target) :
    sent (requestGet target arrival dispatch stats w) =
      some (w.sent ++ appendStats (render okLines) { stats with dynmReq := stats.dynmReq + 1 }
        arrival dispatch ++ w.stdout) := by
  obtain ⟨sbuf, hs, hst, hmode⟩ := answerGet_program he.reply
  have hout : programOutput w.os w.stdout target.filename target.cgiargs = w.stdout := by
    simp [programOutput, he.setenv, he.dup2, he.execve]
  simp only [requestGet, bind_apply, Segel.stat, hs, if_neg hst, if_neg hmode]
  have hsent := @requestServeDynamic_sent w arrival dispatch
    { stats with dynmReq := stats.dynmReq + 1 } hw he.fork target.filename target.cgiargs
  rw [hout] at hsent
  rw [← hsent]
  apply sent_bind
  intro _ w'
  simp only [addToLog]
  split <;> rfl

end

theorem run_sent {target : Target} (ht : Targets fuel v.buf v.old (v.world [] .fresh) target)
    (he : ExecFails v.os target) (stats : Nat → ThreadsStats) :
    ∃ header, ∀ k, k.stats = stats → sent (v.run fuel [] k) = some (header ++ k.stdout) := by
  refine ⟨appendStats (render okLines) { stats v.worker with
    totalReq := (stats v.worker).totalReq + 1, dynmReq := (stats v.worker).dynmReq + 1 }
    v.arrival v.dispatch, fun k hstats => ?_⟩
  have ht' : Targets fuel v.buf v.old (v.world [] k) target := ht.of_input rfl
  obtain ⟨n, line, rio, w₁, rio', w₂, hline, hn, hget, hhdrs, rfl⟩ := ht'
  obtain ⟨input₁, rfl⟩ := RioReadlineb_input hline
  obtain ⟨input₂, rfl⟩ := requestReadhdrs_input hhdrs
  rw [isGet] at hget
  rw [Visit.run, requestHandle, bind_apply, hline]
  dsimp only
  rw [if_neg (by omega), if_pos hget, bind_apply, hhdrs, hstats]
  exact requestGet_sent rfl ⟨he.reply, he.fork, he.setenv, he.dup2, he.execve⟩

def stray (v : Visit) (method : Bytes) (hle : (method ++ crlf).length ≤ 8192) : Visit :=
  ⟨v.worker, [], unset, ⟨0, 0⟩, ⟨0, 0⟩, v.os, [.data (method ++ crlf) (by simp [crlf]) hle]⟩

structure Odd (method : Bytes) : Prop where
  length : (method ++ crlf).length ≤ 8192
  scan : sscanf (cstr (cutLine (MAXLINE - 1) (method ++ crlf)).1) unset = { unset with method := method }
  get : strcasecmp method (str "GET") = false
  post : strcasecmp method (str "POST") = false

def notImplemented (method : Bytes) : Bytes :=
  errorPage method (str "501") (str "Not Implemented")
    (str "OS-HW3 Server does not implement this method")

theorem stray_line {method : Bytes} (h : Odd method) (k : Kept) : ∃ n rio' input',
    RioReadlineb rioReadinitb [] MAXLINE ((stray v method h.length).world [] k) = .returned
      (n, cstr (cutLine (MAXLINE - 1) (method ++ crlf)).1, rio')
      { (stray v method h.length).world [] k with input := input' } ∧ 0 < n := by
  have hinput : received ((stray v method h.length).world [] k).input = method ++ crlf :=
    (received_data _ _ _ []).trans (List.append_nil _)
  obtain ⟨n, rio', input', hr, -, -, hn⟩ := request_line (w := (stray v method h.length).world [] k) []
    (by simp [stray, Visit.world, Clean]) (by simp [hinput, crlf])
  rw [hinput] at hr
  exact ⟨n, rio', input', hr, hn⟩

theorem stray_follows {method : Bytes} (h : Odd method) :
    ∃ k, Follows .fresh [stray v method h.length] k ∧
      k.stats = Function.update Kept.fresh.stats v.worker
        { Kept.fresh.stats v.worker with totalReq := 1 } ∧ k.logged = [] ∧
      k.stdout = response (errorLines (str "501") (str "Not Implemented") (notImplemented method))
        { Kept.fresh.stats v.worker with totalReq := 1 } ⟨0, 0⟩ ⟨0, 0⟩ (notImplemented method) := by
  obtain ⟨n, rio', input', hr, hn⟩ := stray_line (v := v) h .fresh
  obtain ⟨page, hpage, hrun⟩ := @requestError_prints
    { (stray v method h.length).world [] .fresh with input := input' } ⟨0, 0⟩ ⟨0, 0⟩
    { Kept.fresh.stats v.worker with totalReq := 1 } rfl method (str "501") (str "Not Implemented")
    (str "OS-HW3 Server does not implement this method")
  have hreturned : (stray v method h.length).run 0 [] .fresh = .returned
      { Kept.fresh.stats v.worker with totalReq := 1 }
      { (stray v method h.length).world [] .fresh with input := input', sent := page, stdout := page } := by
    have hbuf : (stray v method h.length).buf = [] := rfl
    have hold : (stray v method h.length).old = unset := rfl
    rw [Visit.run, requestHandle, bind_apply, hbuf, hr]
    dsimp only
    rw [if_neg (by omega), hold, h.scan]
    simp only [h.get, h.post, Bool.false_eq_true, if_false]
    exact bind_returned.2 ⟨(), _, hrun, rfl⟩
  exact ⟨_, .cons hreturned (.nil _), rfl, rfl, hpage⟩

theorem stray_refused {method : Bytes} (h : Odd method) : (stray v method h.length).Refused := by
  obtain ⟨n, rio', input', hr, hn⟩ := stray_line (v := v) h .fresh
  refine ⟨method, str "501", str "Not Implemented",
    str "OS-HW3 Server does not implement this method",
    replyTo_eq_some.2 ⟨n, _, rio', _, hr, hn, ?_⟩⟩
  have hold : (stray v method h.length).old = unset := rfl
  rw [hold, h.scan, answer, isGet, h.get, h.post]
  rfl

theorem odd_x : Odd (str "X") :=
  ⟨by decide, by
    have hcut : cstr (cutLine (MAXLINE - 1) (str "X" ++ crlf)).1 = str "X" ++ crlf := by decide +kernel
    rw [hcut]
    rfl, by decide, by decide⟩

theorem odd_y : Odd (str "Y") :=
  ⟨by decide, by
    have hcut : cstr (cutLine (MAXLINE - 1) (str "Y" ++ crlf)).1 = str "Y" ++ crlf := by decide +kernel
    rw [hcut]
    rfl, by decide, by decide⟩

theorem notImplemented_response {method method' : Bytes} {stats : ThreadsStats}
    {arrival dispatch : Timeval}
    (h : response (errorLines (str "501") (str "Not Implemented") (notImplemented method)) stats
        arrival dispatch (notImplemented method) =
      response (errorLines (str "501") (str "Not Implemented") (notImplemented method')) stats
        arrival dispatch (notImplemented method')) : notImplemented method = notImplemented method' := by
  have hfront (page : Bytes) : Front (errorLines (str "501") (str "Not Implemented") page) :=
    errorLines_front (by decide) (by decide) page
  have hp := (hfront (notImplemented method)).parse stats arrival dispatch (notImplemented method)
  have hp' := (hfront (notImplemented method')).parse stats arrival dispatch (notImplemented method')
  rw [h] at hp
  exact (Prod.mk.inj (Option.some.inj (hp.symm.trans hp'))).2

theorem not_private_of_leaks (h : v.Leaks) : ¬ v.Private := by
  obtain ⟨fuel, target, ht, he⟩ := h
  obtain ⟨k, hfollows, hstats, hlogged, hstdout⟩ := stray_follows (v := v) odd_x
  obtain ⟨k', hfollows', hstats', hlogged', hstdout'⟩ := stray_follows (v := v) odd_y
  intro hp
  have hsimilar : Similar [stray v (str "X") odd_x.length] [stray v (str "Y") odd_y.length] :=
    .cons (.inr ⟨rfl, rfl, stray_refused odd_x, stray_refused odd_y⟩) .nil
  have hsame := hp _ _ k k' hsimilar hfollows hfollows' (hstats.trans hstats'.symm)
    (hlogged.trans hlogged'.symm) fuel []
  obtain ⟨header, hsent⟩ := run_sent ht he k.stats
  rw [hsent k rfl, hsent k' (hstats'.trans hstats.symm), Option.some_inj, List.append_cancel_left_eq,
    hstdout, hstdout'] at hsame
  exact absurd (notImplemented_response hsame) (by decide)

/-- A client is sent nothing of what others were told if and only if its request does
not end in a CGI program that cannot be executed. -/
theorem private_iff (v : Visit) : v.Private ↔ ¬ v.Leaks :=
  ⟨fun hp hl => not_private_of_leaks hl hp, private_of_not_leaks⟩

def broken : Visit :=
  ⟨0, [], unset, ⟨1, 5⟩, ⟨0, 7⟩, { Os.bare with stat := fun _ => some ⟨true, true, true, 9⟩ },
    [.data (str "GET a.cgi HTTP/1.0\r\n\r\n") (by decide) (by decide)]⟩

theorem broken_leaks : ¬ broken.Private := by
  apply not_private_of_leaks
  have hclean : Clean (broken.world [] .fresh).input := by simp [broken, Visit.world, Clean]
  have hreceived : received (broken.world [] .fresh).input = str "GET a.cgi HTTP/1.0\r\n\r\n" :=
    (received_data _ _ _ []).trans (List.append_nil _)
  obtain ⟨n, rio, input₁, hline, hrest, hclean₁, hn⟩ := request_line [] hclean
    (by rw [hreceived]; decide)
  have hcut : cutLine (MAXLINE - 1) (str "GET a.cgi HTTP/1.0\r\n\r\n") =
      (str "GET a.cgi HTTP/1.0\r\n", crlf) := by decide +kernel
  rw [hreceived, hcut] at hline hrest
  have hempty : crlf ∈ fragments (stream rio input₁) := by
    have hfirst : (cutLine (MAXLINE - 1) crlf).1 = crlf := by decide +kernel
    rw [hrest, fragments_cons (by decide), hfirst]
    simp
  obtain ⟨fuel, rio', w₂, hhdrs⟩ := (@requestReadhdrs_ends_iff unset.hdrs rio
    { broken.world [] .fresh with input := input₁ } hclean₁).2 (.inl hempty)
  refine ⟨fuel, _, ⟨n, _, rio, _, rio', w₂, hline, hn, by decide +kernel, hhdrs, rfl⟩, ?_⟩
  exact ⟨by decide +kernel, by decide, rfl, rfl, rfl⟩

end WebServer.StdoutBuffer
