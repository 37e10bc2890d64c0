import WebServer.Answers
import WebServer.TwoRuns

namespace WebServer.RelatedRequests

open Message Process Segel RequestHandle Answers
open RequestQueue (Timeval ThreadsStats)

/-- The calls that take no name of a file respect `R`, which relates worlds of the
system `os` to others. -/
structure Calls (os : Os) (R : World → World → Prop) : Prop where
  os_eq : ∀ w w', R w w' → w.os = os
  readline : ∀ rio buf maxlen, (RioReadlineb rio buf maxlen).Respects R
  writen : ∀ usrbuf n, (RioWriten usrbuf n).Respects R
  printf : ∀ bs, (printf bs).Respects R
  close : Close.Respects R
  mmap : ∀ len fd, (Mmap len fd).Respects R
  munmap : Munmap.Respects R
  waitpid : WaitPid.Respects R
  getLog : getLog.Respects R
  addToLog : ∀ data len, (addToLog data len).Respects R

structure Reaches (os : Os) (R : World → World → Prop) (target : Target) : Prop where
  stat : (stat target.filename).Respects R
  openFd : target.isStatic = true → (Open target.filename).Respects R
  fork : answerGet os target = .program target.filename target.cgiargs → (Fork do
    Setenv target.cgiargs
    Dup2
    Execve target.filename).Respects R

variable {os : Os} {R : World → World → Prop} {arrival dispatch : Timeval} {stats : ThreadsStats}
  {target : Target} {w w' : World}

theorem requestError_respects (hR : Calls os R) (cause errnum shortmsg longmsg : Bytes) :
    (requestError cause errnum shortmsg longmsg arrival dispatch stats).Respects R := by
  simp only [requestError]
  apply (hR.writen _ _).bind
  intro _
  apply (hR.printf _).bind
  intro _
  apply (hR.writen _ _).bind
  intro _
  apply (hR.printf _).bind
  intro _
  apply (hR.writen _ _).bind
  intro _
  apply (hR.printf _).bind
  intro _
  apply (hR.writen _ _).bind
  intro _
  exact hR.printf _

theorem readhdrsLoop_respects (hline : ∀ rio buf maxlen, (RioReadlineb rio buf maxlen).Respects R)
    (fuel : Nat) (buf : Bytes) (rio : Rio) : (readhdrsLoop fuel buf rio).Respects R := by
  induction fuel generalizing buf rio with
  | zero => exact fun _ _ _ => .unfinished
  | succ fuel ih =>
      rw [readhdrsLoop]
      apply respects_ite (respects_pure rio)
      apply (hline _ _ _).bind
      rintro ⟨_, buf, rio⟩
      exact ih buf rio

theorem requestReadhdrs_respects
    (hline : ∀ rio buf maxlen, (RioReadlineb rio buf maxlen).Respects R) (fuel : Nat)
    (stale : Bytes) (rio : Rio) : (requestReadhdrs fuel stale rio).Respects R := by
  apply (hline _ _ _).bind
  rintro ⟨_, buf, rio⟩
  exact readhdrsLoop_respects hline fuel buf rio

theorem requestServeDynamic_respects (hR : Calls os R) (ht : Reaches os R target)
    (hd : answerGet os target = .program target.filename target.cgiargs) :
    (requestServeDynamic target.filename target.cgiargs arrival dispatch stats).Respects R := by
  simp only [requestServeDynamic]
  apply (hR.writen _ _).bind
  intro _
  apply (ht.fork hd).bind
  intro _
  exact hR.waitpid

theorem forbidden_respects (hR : Calls os R) {x : Sys Unit} (hx : x.Respects R)
    (cause longmsg : Bytes) : (do
      x
      requestError cause (str "403") (str "Forbidden") longmsg arrival dispatch stats
      return stats : Sys ThreadsStats).Respects R := by
  apply hx.bind
  intro _
  apply (requestError_respects hR _ _ _ _).bind
  intro _
  exact respects_pure _

theorem requestServeStatic_respects (hR : Calls os R) (ht : Reaches os R target)
    (hs : target.isStatic = true) (size : Int) :
    (requestServeStatic target.filename size arrival dispatch stats).Respects R := by
  rw [requestServeStatic]
  apply (ht.openFd hs).bind
  intro srcfd
  apply respects_ite
  · exact forbidden_respects hR (x := pure ()) (respects_pure _) _ _
  apply respects_ite
  · exact forbidden_respects hR hR.close _ _
  apply (hR.mmap _ _).bind
  rintro (_ | srcp)
  · exact forbidden_respects hR hR.close _ _
  apply hR.close.bind
  intro _
  apply (hR.writen _ _).bind
  intro _
  apply (hR.writen _ _).bind
  intro _
  apply hR.munmap.bind
  intro _
  exact respects_pure _

theorem error_respects (hR : Calls os R) (cause errnum shortmsg longmsg : Bytes) : (do
    requestError cause errnum shortmsg longmsg arrival dispatch stats
    return stats : Sys ThreadsStats).Respects R := by
  apply (requestError_respects hR _ _ _ _).bind
  intro _
  exact respects_pure _

theorem requestGet_respects (hR : Calls os R) (ht : Reaches os R target) :
    (requestGet target arrival dispatch stats).Respects R := by
  intro w w' hw
  rw [requestGet, bind_apply, bind_apply]
  have hstat := ht.stat w w' hw
  have hos : stat target.filename w = .returned (os.stat target.filename) w := by
    rw [stat, hR.os_eq w w' hw]
  rw [hos] at hstat ⊢
  generalize stat target.filename w' = r at hstat ⊢
  cases hstat with
  | returned _ h =>
    dsimp only
    cases hs : os.stat target.filename with
    | none => exact error_respects hR _ _ _ _ _ _ h
    | some sbuf =>
      dsimp only
      by_cases hst : target.isStatic = true
      · simp only [if_pos hst]
        apply respects_ite (error_respects hR _ _ _ _) _ _ _ h
        apply (requestServeStatic_respects hR ht hst _).bind
        intro stats'
        apply (hR.addToLog _ _).bind
        intro _
        exact respects_pure _
      simp only [if_neg hst]
      by_cases hmode : ¬ sbuf.isReg = true ∨ ¬ sbuf.ixusr = true
      · simp only [if_pos hmode]
        exact error_respects hR _ _ _ _ _ _ h
      · have hprogram : answerGet os target = .program target.filename target.cgiargs := by
          simp only [answerGet, hs, if_neg hst, if_neg hmode]
        simp only [if_neg hmode]
        apply (requestServeDynamic_respects hR ht hprogram).bind _ _ _ h
        intro _
        apply (hR.addToLog _ _).bind
        intro _
        exact respects_pure _

theorem requestServePost_respects (hR : Calls os R) :
    (requestServePost arrival dispatch stats).Respects R := by
  apply hR.getLog.bind
  rintro ⟨bodyLen, body⟩
  apply (hR.writen _ _).bind
  intro _
  exact hR.writen _ _

def Targets (fuel : Nat) (buf : Bytes) (old : Locals) (w : World) (target : Target) : Prop :=
  ∃ n line rio w₁ rio' w₂, RioReadlineb rioReadinitb buf MAXLINE w = .returned (n, line, rio) w₁ ∧
    0 < n ∧ isGet (sscanf line old) = true ∧
    requestReadhdrs fuel old.hdrs rio w₁ = .returned rio' w₂ ∧
    requestParseURI (sscanf line old).uri (sscanf line old) = target

variable {fuel : Nat} {buf : Bytes} {old : Locals}

theorem readline_input (rio : Rio) (buf : Bytes) (maxlen : Nat) :
    (RioReadlineb rio buf maxlen).Respects fun w w' => w.input = w'.input := by
  intro w w' h
  simp only [RioReadlineb, h]
  split
  · exact .returned _ rfl
  · exact .returned _ rfl
  · exact .exited rfl

theorem Targets.of_input (h : Targets fuel buf old w target) (hi : w.input = w'.input) :
    Targets fuel buf old w' target := by
  obtain ⟨n, line, rio, w₁, rio', w₂, hline, hn, hget, hhdrs, ht⟩ := h
  have h₁ := readline_input rioReadinitb buf MAXLINE w w' hi
  rw [hline] at h₁
  generalize hx : RioReadlineb rioReadinitb buf MAXLINE w' = r at h₁
  cases h₁ with
  | @returned _ _ v₁ hi₁ =>
    have h₂ := requestReadhdrs_respects readline_input fuel old.hdrs rio _ _ hi₁
    rw [hhdrs] at h₂
    generalize hy : requestReadhdrs fuel old.hdrs rio v₁ = r at h₂
    cases h₂ with
    | returned _ _ => exact ⟨n, line, rio, _, rio', _, hx, hn, hget, hy, ht⟩

theorem requestHandle_related (hR : Calls os R) (hw : R w w')
    (ht : ∀ target, Targets fuel buf old w target → Reaches os R target) :
    (requestHandle fuel buf old arrival dispatch stats w).Related R
      (requestHandle fuel buf old arrival dispatch stats w') := by
  rw [requestHandle, bind_apply, bind_apply]
  have hline := hR.readline rioReadinitb buf MAXLINE w w' hw
  rcases hx : RioReadlineb rioReadinitb buf MAXLINE w with ⟨⟨n, line, rio⟩, w₁⟩ | w₁ | _ <;>
    rw [hx] at hline
  · generalize RioReadlineb rioReadinitb buf MAXLINE w' = r at hline ⊢
    cases hline with
    | returned _ h₁ =>
      dsimp only
      by_cases hn : n ≤ 0
      · rw [if_pos hn]
        exact .returned _ h₁
      rw [if_neg hn]
      by_cases hget : strcasecmp (sscanf line old).method (str "GET") = true
      · simp only [if_pos hget]
        have hhdrs := requestReadhdrs_respects hR.readline fuel old.hdrs rio _ _ h₁
        rw [bind_apply, bind_apply]
        cases hr : requestReadhdrs fuel old.hdrs rio w₁ with
        | returned rio' w₂ =>
          have hreach := ht _ ⟨n, line, rio, w₁, rio', w₂, hx, by omega, hget, hr, rfl⟩
          rw [hr] at hhdrs
          generalize requestReadhdrs fuel old.hdrs rio _ = r at hhdrs ⊢
          cases hhdrs with
          | returned _ h₂ => exact requestGet_respects hR hreach _ _ h₂
        | exited w₂ =>
          rw [hr] at hhdrs
          generalize requestReadhdrs fuel old.hdrs rio _ = r at hhdrs ⊢
          cases hhdrs with
          | exited h₂ => exact .exited h₂
        | unfinished =>
          rw [hr] at hhdrs
          generalize requestReadhdrs fuel old.hdrs rio _ = r at hhdrs ⊢
          cases hhdrs with
          | unfinished => exact .unfinished
      simp only [if_neg hget]
      by_cases hpost : strcasecmp (sscanf line old).method (str "POST") = true
      · simp only [if_pos hpost]
        apply (requestServePost_respects hR).bind _ _ _ h₁
        intro _
        exact respects_pure _
      · simp only [if_neg hpost]
        exact error_respects hR _ _ _ _ _ _ h₁
  · generalize RioReadlineb rioReadinitb buf MAXLINE w' = r at hline ⊢
    cases hline with
    | exited h₁ => exact .exited h₁
  · generalize RioReadlineb rioReadinitb buf MAXLINE w' = r at hline ⊢
    cases hline with
    | unfinished => exact .unfinished

end WebServer.RelatedRequests
