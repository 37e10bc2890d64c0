import WebServer.Framing
import WebServer.Paths
import WebServer.RelatedRequests

namespace WebServer.PublicFiles

open Message Process Segel RequestHandle HeaderReading Framing RelatedRequests Paths
open RequestQueue (Timeval ThreadsStats)

abbrev Public (filename : Bytes) : Prop := Confined 47 46 (str "public") filename

theorem public_name : Name 47 46 (str "public") := ⟨by decide, by decide, by decide, by decide⟩

theorem below_public : below 47 46 (str "public") = str "./public/" := by decide

theorem public_append {rest : Bytes} (h : str ".." ∉ components 47 rest) :
    Public (str "./public/" ++ rest) := by
  rw [← below_public]
  exact confined_below (by decide) public_name h

theorem no_up {path uri : Bytes} (hu : ¬ str ".." <:+: uri) (hp : path <:+: uri) :
    str ".." ∉ components 47 path :=
  fun h => hu ((infix_of_component h).trans hp)

theorem home_no_up {uri : Bytes} (hu : ¬ str ".." <:+: uri) (hl : uri = [] ∨ uri.getLast? = some 47) :
    str ".." ∉ components 47 (uri ++ str "home.html") := by
  have hhome : components 47 (str "home.html") = [str "home.html"] := components_one (by decide)
  rcases hl with rfl | hl
  · rw [List.nil_append, hhome]
    decide
  · obtain ⟨path, rfl⟩ := List.getLast?_eq_some_iff.1 hl
    rw [List.append_assoc, List.singleton_append, components_append, hhome, List.mem_append, not_or]
    exact ⟨no_up hu (List.prefix_append _ _).isInfix, by decide⟩

theorem parse_public (uri : Bytes) (old : Locals) : Public (requestParseURI uri old).filename := by
  rw [requestParseURI]
  by_cases hu : str ".." <:+: uri
  · rw [if_pos hu]
    exact @public_append (str "home.html") (by decide +kernel)
  rw [if_neg hu]
  by_cases hc : ¬ str "cgi" <:+: uri
  · rw [if_pos hc]
    dsimp only
    by_cases hl : uri.getLast?.getD old.below = 47
    · rw [if_pos hl, List.append_assoc]
      apply public_append (home_no_up hu _)
      cases hlast : uri.getLast? with
      | none => exact .inl (List.getLast?_eq_none_iff.1 hlast)
      | some b =>
          rw [hlast] at hl
          exact .inr (congrArg some hl)
    · rw [if_neg hl]
      exact public_append (no_up hu List.infix_rfl)
  · rw [if_neg hc]
    exact public_append (no_up hu (List.takeWhile_prefix _).isInfix)

/-- The systems have the same public files and answer the other calls alike. -/
structure SamePublic (os os' : Os) : Prop where
  other : os' = { os with stat := os'.stat, openFd := os'.openFd, execve := os'.execve }
  stat : ∀ filename, Public filename → os'.stat filename = os.stat filename
  openFd : ∀ filename, Public filename → os'.openFd filename = os.openFd filename
  execve : ∀ filename, Public filename → os'.execve filename = os.execve filename

structure Twin (os os' : Os) (w w' : World) : Prop where
  os_eq : w.os = os
  world : w' = { w with os := os' }

variable {os os' : Os} {w w' : World}

theorem check_respects {call : Os → Bool} (hcall : call os' = call os) :
    (check call).Respects (Twin os os') := by
  rintro w _ ⟨rfl, rfl⟩
  simp only [check, hcall]
  split
  · exact .returned _ ⟨rfl, rfl⟩
  · exact .exited ⟨rfl, rfl⟩

theorem twin_calls (h : SamePublic os os') : Calls os (Twin os os') where
  os_eq _ _ hw := hw.os_eq
  readline rio buf maxlen := by
    rintro w _ ⟨rfl, rfl⟩
    simp only [RioReadlineb]
    split
    · exact .returned _ ⟨rfl, rfl⟩
    · exact .returned _ ⟨rfl, rfl⟩
    · exact .exited ⟨rfl, rfl⟩
  writen usrbuf n := by
    rintro w _ ⟨rfl, rfl⟩
    simp only [RioWriten]
    generalize (if n ≤ usrbuf.length then [] else [WriteAnswer.failed]) = fault
    split
    · exact .returned _ ⟨rfl, rfl⟩
    · exact .exited ⟨rfl, rfl⟩
  printf bs := by
    rintro w _ ⟨rfl, rfl⟩
    exact .returned _ ⟨rfl, rfl⟩
  close := check_respects (by rw [h.other])
  mmap len fd := by
    rintro w _ ⟨rfl, rfl⟩
    have hok : os'.mmapOk = w.os.mmapOk := by rw [h.other]
    have hmapped : os'.mapped fd = w.os.mapped fd := by rw [h.other]; rfl
    simp only [Mmap, hok, hmapped]
    split
    · exact .returned _ ⟨rfl, rfl⟩
    · exact .exited ⟨rfl, rfl⟩
  munmap := check_respects (by rw [h.other])
  waitpid := check_respects (by rw [h.other])
  getLog := by
    rintro w _ ⟨rfl, rfl⟩
    have hlog : os'.log = w.os.log := by rw [h.other]
    simp only [getLog, hlog]
    exact .returned _ ⟨rfl, rfl⟩
  addToLog data len := by
    rintro w _ ⟨rfl, rfl⟩
    simp only [addToLog]
    split
    · exact .returned _ ⟨rfl, rfl⟩
    · exact .returned _ ⟨rfl, rfl⟩

theorem fork_respects (h : SamePublic os os') {child : Sys Unit}
    (hc : child.Respects (Twin os os')) : (Fork child).Respects (Twin os os') := by
  rintro w _ ⟨rfl, rfl⟩
  have hfork : os'.fork = w.os.fork := by rw [h.other]
  simp only [Fork, hfork]
  cases w.os.fork with
  | none => exact .exited ⟨rfl, rfl⟩
  | some pid =>
      dsimp only
      have hrun := hc w { w with os := os' } ⟨rfl, rfl⟩
      generalize child w = r, child { w with os := os' } = r' at hrun ⊢
      cases hrun with
      | returned _ hw | exited hw =>
        rw [hw.world]
        exact .returned _ ⟨rfl, rfl⟩
      | unfinished => exact .unfinished

theorem child_respects (h : SamePublic os os') {filename : Bytes} (hp : Public filename)
    (cgiargs : Bytes) : (do
    Setenv cgiargs
    Dup2
    Execve filename : Sys Unit).Respects (Twin os os') := by
  apply Proc.Respects.bind
  · rintro w _ ⟨rfl, rfl⟩
    have hok : os'.setenvOk = w.os.setenvOk := by rw [h.other]
    simp only [Setenv, hok]
    split
    · exact .returned _ ⟨rfl, rfl⟩
    · exact .exited ⟨rfl, rfl⟩
  intro _
  apply Proc.Respects.bind (check_respects (by rw [h.other]))
  rintro _ w _ ⟨rfl, rfl⟩
  simp only [Execve, h.execve _ hp]
  split
  · exact .exited ⟨rfl, rfl⟩
  · exact .exited ⟨rfl, rfl⟩

theorem public_reaches (h : SamePublic os os') {target : Target} (hp : Public target.filename) :
    Reaches os (Twin os os') target where
  stat := by
    rintro w _ ⟨rfl, rfl⟩
    simp only [stat, h.stat _ hp]
    exact .returned _ ⟨rfl, rfl⟩
  openFd _ := by
    rintro w _ ⟨rfl, rfl⟩
    simp only [Open, h.openFd _ hp]
    split
    · exact .returned _ ⟨rfl, rfl⟩
    · exact .exited ⟨rfl, rfl⟩
  fork _ := fork_respects h (child_respects h hp _)

/-- Whatever a client asks for, the file is a public one, and whether a path that is
not public exists, what it holds and what it does when run makes no difference. -/
theorem served_files_public (uri : Bytes) (old : Locals) :
    Public (requestParseURI uri old).filename ∧
      ∀ w os', SamePublic w.os os' → ∀ fuel buf old arrival dispatch stats,
        (requestHandle fuel buf old arrival dispatch stats w).Related (Twin w.os os')
          (requestHandle fuel buf old arrival dispatch stats { w with os := os' }) := by
  refine ⟨parse_public uri old, fun w os' h fuel buf old arrival dispatch stats => ?_⟩
  apply requestHandle_related (twin_calls h) ⟨rfl, rfl⟩
  rintro _ ⟨n, line, rio, w₁, rio', w₂, -, -, -, -, rfl⟩
  exact public_reaches h (parse_public _ _)

def prying : World := client .bare (str "GET ../secret HTTP/1.0\r\n\r\n") (by decide) (by decide)

def secret : Os :=
  { Os.bare with
    stat := fun f => if f = str "./secret" then some ⟨true, true, true, 3⟩ else none
    openFd := fun f => if f = str "./secret" then some 4 else none }

theorem secret_samePublic : SamePublic .bare secret := by
  have hne (filename : Bytes) (hf : Public filename) : filename ≠ str "./secret" := by
    rintro rfl
    exact absurd hf.1 (by decide)
  refine ⟨rfl, fun filename hf => ?_, fun filename hf => ?_, fun _ _ => rfl⟩
  · exact if_neg (hne filename hf)
  · exact if_neg (hne filename hf)

theorem served_files_public_prying : Public (requestParseURI (str "../secret") unset).filename ∧
    ∀ fuel, (requestHandle fuel [] unset ⟨1, 5⟩ ⟨0, 7⟩ ⟨3, 0, 0, 0, 0⟩ prying).Related
      (Twin .bare secret) (requestHandle fuel [] unset ⟨1, 5⟩ ⟨0, 7⟩ ⟨3, 0, 0, 0, 0⟩
        { prying with os := secret }) := by
  obtain ⟨hp, htwin⟩ := served_files_public (str "../secret") unset
  exact ⟨hp, fun fuel =>
    htwin prying secret secret_samePublic fuel [] unset ⟨1, 5⟩ ⟨0, 7⟩ ⟨3, 0, 0, 0, 0⟩⟩

end WebServer.PublicFiles
