import WebServer.Answers
import WebServer.RequestCalls

namespace WebServer.Sessions

open Message Process Segel RequestCalls
open Answers (response contentLines appendStats_render contentLines_render)
open RequestHandle (Locals Target requestParseURI sscanf strcasecmp)
open RequestQueue (Timeval ThreadsStats)
open ServerLog (int32)

/-- The file that is open, the bytes written to the connection, what `get_log` has
handed out, and whether `fork` has been called. -/
structure Session where
  file : Option Int
  sent : Bytes
  log : Option (Int × Bytes)
  forked : Bool

def Session.new : Session := ⟨none, [], none, false⟩

def opened (fd : Int) : Option Int := if fd < 0 then none else some fd

/-- A request closes the file that it has opened and no other descriptor. It reads the
log once, and only where it runs no program. -/
def protocol : Protocol Call Call.Answer Session where
  allows s
    | .openFile _ => s.file = none
    | .close fd => s.file = some fd
    | .fork _ _ | .addToLog _ _ => s.log = none
    | .getLog => s.log = none ∧ s.forked = false
    | _ => True
  next s
    | .rioWriten usrbuf n, _ => { s with sent := s.sent ++ usrbuf.take n }
    | .openFile _, fd => { s with file := opened fd }
    | .close _, _ => { s with file := none }
    | .fork _ _, _ => { s with forked := true }
    | .getLog, r => { s with log := some r }
    | _, _ => s

structure Session.Over (s : Session) : Prop where
  file : s.file = none
  posted : ∀ n dst, s.log = some (n, dst) → ∃ stats arrival dispatch,
    s.sent = response (contentLines n (str "text/plain")) stats arrival dispatch
      (dst.take (n % 2 ^ 64).toNat)

structure Session.Extends (s s' : Session) : Prop where
  file : s'.file = s.file
  log : s'.log = s.log

variable {s s' s'' : Session}

theorem Session.Extends.refl (s : Session) : s.Extends s := ⟨rfl, rfl⟩

theorem Session.Extends.trans (h : s.Extends s') (h' : s'.Extends s'') : s.Extends s'' :=
  ⟨h'.file.trans h.file, h'.log.trans h.log⟩

theorem Session.Extends.finished (h : s.Extends s') (hfile : s.file = none) (hlog : s.log = none) :
    s'.Over where
  file := h.file.trans hfile
  posted n dst hread := by rw [h.log, hlog] at hread; cases hread

abbrev Follows {α : Type} (x : Calls α) (s : Session) (Q : α → Session → Prop) : Prop :=
  Prog.Follows protocol Q s x

section

variable (usrbuf bs cause errnum shortmsg longmsg filename cgiargs : Bytes)
  (arrival dispatch : Timeval) (stats : ThreadsStats)

theorem asks {c : Call} (h : protocol.allows s c) :
    Follows (.ask c) s fun r s' => s' = protocol.next s c r :=
  follows_ask h fun _ => rfl

theorem RioReadlineb_follows (rio : Rio) (maxlen : Nat) :
    Follows (RioReadlineb rio usrbuf maxlen) s fun _ s' => s' = s := asks trivial

theorem RioWriten_follows (n : Nat) :
    Follows (RioWriten usrbuf n) s fun _ s' => s' = { s with sent := s.sent ++ usrbuf.take n } :=
  asks trivial

theorem Close_follows {fd : Int} (h : s.file = some fd) :
    Follows (Close fd) s fun _ s' => s' = { s with file := none } := asks h

theorem addToLog_follows (len : Int) (h : s.log = none) :
    Follows (addToLog bs len) s fun _ s' => s' = s := asks h

theorem sends_follows (n : Nat) : Follows (RioWriten usrbuf n) s fun _ s' => s.Extends s' :=
  (RioWriten_follows usrbuf n).mono fun _ s' h => by subst h; exact ⟨rfl, rfl⟩

theorem prints_follows : Follows (printf bs) s fun _ s' => s.Extends s' :=
  follows_ask trivial fun _ => .refl _

theorem requestError_follows :
    Follows (requestError cause errnum shortmsg longmsg arrival dispatch stats) s
      fun _ s' => s.Extends s' := by
  rw [requestError]
  dsimp only
  apply (sends_follows _ _).bind
  intro _ s₁ h₁
  apply (prints_follows _).bind
  intro _ s₂ h₂
  apply (sends_follows _ _).bind
  intro _ s₃ h₃
  apply (prints_follows _).bind
  intro _ s₄ h₄
  apply (sends_follows _ _).bind
  intro _ s₅ h₅
  apply (prints_follows _).bind
  intro _ s₆ h₆
  apply (sends_follows _ _).bind
  intro _ s₇ h₇
  have h := ((((((h₁.trans h₂).trans h₃).trans h₄).trans h₅).trans h₆).trans h₇)
  exact (prints_follows _).mono fun _ _ => h.trans

theorem readhdrsLoop_follows (fuel : Nat) (buf : Bytes) (rio : Rio) :
    Follows (readhdrsLoop fuel buf rio) s fun _ s' => s' = s := by
  induction fuel generalizing buf rio with
  | zero => trivial
  | succ fuel ih =>
      rw [readhdrsLoop]
      split
      · rfl
      · apply (RioReadlineb_follows _ _ _).bind
        rintro ⟨_, line, rio'⟩ s₁ rfl
        exact ih line rio'

theorem requestReadhdrs_follows (fuel : Nat) (stale : Bytes) (rio : Rio) :
    Follows (requestReadhdrs fuel stale rio) s fun _ s' => s' = s := by
  rw [requestReadhdrs]
  apply (RioReadlineb_follows _ _ _).bind
  rintro ⟨_, line, rio'⟩ s₁ rfl
  exact readhdrsLoop_follows _ _ _

theorem requestServeDynamic_follows (hlog : s.log = none) :
    Follows (requestServeDynamic filename cgiargs arrival dispatch stats) s
      fun _ s' => s.Extends s' := by
  rw [requestServeDynamic]
  apply (sends_follows _ _).bind
  intro _ s₁ h₁
  have hfork : protocol.allows s₁ (.fork cgiargs filename) := h₁.log.trans hlog
  refine (asks hfork).bind fun pid s₂ h₂ => ?_
  subst h₂
  exact follows_ask trivial fun _ => h₁.trans ⟨rfl, rfl⟩

theorem requestServeStatic_follows (filesize : Int) (hfile : s.file = none) :
    Follows (requestServeStatic filename filesize arrival dispatch stats) s
      fun _ s' => s.Extends s' := by
  rw [requestServeStatic]
  refine (asks (c := .openFile filename) hfile).bind fun srcfd s₁ h₁ => ?_
  change Int at srcfd
  replace h₁ : s₁ = { s with file := opened srcfd } := h₁
  by_cases hfd : srcfd < 0
  · rw [if_pos hfd]
    refine (requestError_follows _ _ _ _ _ _ _).bind fun _ s₂ h₂ => ?_
    refine Session.Extends.trans ⟨?_, ?_⟩ h₂
    · rw [h₁, opened, if_pos hfd, hfile]
    · rw [h₁]
  have hclose : s₁.file = some srcfd := by rw [h₁, opened, if_neg hfd]
  have hext : s.Extends { s₁ with file := none } := by rw [h₁]; exact ⟨hfile.symm, rfl⟩
  have refuses (longmsg : Bytes) (stats' : ThreadsStats) :
      Follows (do
        Close srcfd
        requestError filename (str "403") (str "Forbidden") longmsg arrival dispatch stats'
        return stats') s₁ fun _ s' => s.Extends s' := by
    refine (Close_follows hclose).bind fun _ s₂ h₂ => ?_
    subst h₂
    exact (requestError_follows _ _ _ _ _ _ _).bind fun _ s₃ h₃ => hext.trans h₃
  rw [if_neg hfd]
  by_cases hsize : filesize = 0
  · rw [if_pos hsize]
    exact refuses _ _
  rw [if_neg hsize]
  refine (asks (c := .mmap filesize srcfd) trivial).bind fun srcp s₂ h₂ => ?_
  obtain rfl : s₂ = s₁ := h₂
  cases srcp with
  | none => exact refuses _ _
  | some srcp =>
      refine (Close_follows hclose).bind fun _ s₃ h₃ => ?_
      subst h₃
      refine (sends_follows _ _).bind fun _ s₄ h₄ => ?_
      refine (sends_follows _ _).bind fun _ s₅ h₅ => ?_
      exact ⟨trivial, fun _ => (hext.trans h₄).trans h₅⟩

theorem requestServePost_follows :
    Follows (requestServePost arrival dispatch stats) Session.new fun _ s' => s'.Over := by
  rw [requestServePost]
  refine (asks (c := .getLog) ⟨rfl, rfl⟩).bind fun r s₁ h₁ => ?_
  dsimp only
  refine (RioWriten_follows _ _).bind fun _ s₂ h₂ => ?_
  refine (RioWriten_follows _ _).mono fun _ s₃ h₃ => ?_
  subst h₁ h₂ h₃
  refine ⟨rfl, fun n dst hr => ⟨stats, arrival, dispatch, ?_⟩⟩
  obtain rfl : r = (n, dst) := Option.some.inj hr
  simp only [contentLines_render, appendStats_render, List.take_length, response]
  rfl

theorem requestGet_follows (target : Target) (hfile : s.file = none) (hlog : s.log = none) :
    Follows (requestGet target arrival dispatch stats) s fun _ s' => s.Extends s' := by
  have refuses (errnum shortmsg longmsg : Bytes) :
      Follows (do
        requestError target.filename errnum shortmsg longmsg arrival dispatch stats
        return stats) s fun _ s' => s.Extends s' :=
    (requestError_follows _ _ _ _ _ _ _).bind fun _ s₁ h₁ => h₁
  rw [requestGet]
  refine (asks (c := .stat target.filename) trivial).bind fun found s₁ h₁ => ?_
  obtain rfl : s₁ = s := h₁
  cases found with
  | none => exact refuses _ _ _
  | some sbuf =>
      dsimp only
      by_cases hstatic : target.isStatic = true
      · rw [if_pos hstatic]
        split
        · exact refuses _ _ _
        · refine (requestServeStatic_follows _ _ _ _ _ hfile).bind fun _ s₂ h₂ => ?_
          refine (addToLog_follows _ _ (h₂.log.trans hlog)).bind fun _ s₃ h₃ => ?_
          subst h₃
          exact h₂
      · rw [if_neg hstatic]
        split
        · exact refuses _ _ _
        · refine (requestServeDynamic_follows _ _ _ _ _ hlog).bind fun _ s₂ h₂ => ?_
          refine (addToLog_follows _ _ (h₂.log.trans hlog)).bind fun _ s₃ h₃ => ?_
          subst h₃
          exact h₂

/-- Every call of `requestHandle` is one that the protocol allows. -/
theorem requestHandle_follows (fuel : Nat) (buf : Bytes) (old : Locals) :
    Follows (requestHandle fuel buf old arrival dispatch stats) Session.new fun _ s' => s'.Over := by
  rw [requestHandle]
  refine (RioReadlineb_follows _ _ _).bind ?_
  rintro ⟨n, line, rio⟩ s rfl
  have finished {s' : Session} (h : Session.new.Extends s') : s'.Over := h.finished rfl rfl
  dsimp only
  split
  · exact finished (.refl _)
  · split
    · refine (requestReadhdrs_follows _ _ _).bind ?_
      rintro _ s rfl
      exact (requestGet_follows _ _ _ _ rfl rfl).mono fun _ _ => finished
    · split
      · exact (requestServePost_follows _ _ _).bind fun _ _ h => h
      · exact (requestError_follows _ _ _ _ _ _ _).bind fun _ _ h => finished h

end

end WebServer.Sessions
