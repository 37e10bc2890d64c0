import WebServer.HeaderReading
import WebServer.Paths

namespace WebServer.RequestUris

open Message Segel RequestHandle Answers HeaderReading Paths

variable {uri path query : Bytes} {old old' : Locals}

/-- What a static path is followed by. `below` is the byte that is looked at when the
path is empty. -/
def homeSuffix (uri : Bytes) (below : UInt8) : Bytes :=
  if uri.getLast?.getD below = 47 then str "home.html" else []

theorem parse_up (hu : str ".." <:+: uri) (old : Locals) :
    requestParseURI uri old = ⟨true, str "./public/home.html", old.cgiargs⟩ := by
  rw [requestParseURI, if_pos hu]

theorem parse_static (hu : ¬ str ".." <:+: uri) (hc : ¬ str "cgi" <:+: uri) (old : Locals) :
    requestParseURI uri old = ⟨true, str "./public/" ++ uri ++ homeSuffix uri old.below, []⟩ := by
  simp only [requestParseURI, if_neg hu, if_pos hc, homeSuffix]
  split
  · rfl
  · rw [List.append_nil]

theorem parse_dynamic (hu : ¬ str ".." <:+: uri) (hc : str "cgi" <:+: uri) (old : Locals) :
    requestParseURI uri old = ⟨false, str "./public/" ++ uri.takeWhile fun b => decide (b ≠ 63),
      (uri.dropWhile fun b => decide (b ≠ 63)).tail⟩ := by
  rw [requestParseURI, if_neg hu, if_neg (not_not.2 hc)]

theorem cgi_of_dynamic (h : (requestParseURI uri old).isStatic = false) : str "cgi" <:+: uri := by
  by_contra hc
  by_cases hu : str ".." <:+: uri
  · simp [parse_up hu] at h
  · simp [parse_static hu hc] at h

theorem homeSuffix_cases (uri : Bytes) (below : UInt8) :
    homeSuffix uri below = [] ∨ homeSuffix uri below = str "home.html" := by
  rw [homeSuffix]
  split
  · exact .inr rfl
  · exact .inl rfl

theorem homeSuffix_congr (h : uri ≠ []) (below below' : UInt8) :
    homeSuffix uri below = homeSuffix uri below' := by
  simp only [homeSuffix, List.getLast?_eq_some_getLast h, Option.getD_some]

def withQuery (path query : Bytes) : Bytes := path ++ 63 :: query

/-- The query decides neither which file is used nor whether it is run, and a file is
run only where its own path has `cgi`. -/
structure Separate (path query : Bytes) : Prop where
  filename : ∀ old, (requestParseURI (withQuery path query) old).filename =
    (requestParseURI path old).filename
  isStatic : ∀ old, (requestParseURI (withQuery path query) old).isStatic =
    (requestParseURI path old).isStatic
  run : ∀ os old filename cgiargs,
    answerGet os (requestParseURI (withQuery path query) old) = .program filename cgiargs →
      str "cgi" <:+: path

theorem up_withQuery : str ".." <:+: withQuery path query ↔
    str ".." <:+: path ∨ str ".." <:+: query :=
  infix_append_cons (by decide)

theorem cgi_withQuery : str "cgi" <:+: withQuery path query ↔
    str "cgi" <:+: path ∨ str "cgi" <:+: query :=
  infix_append_cons (by decide)

theorem takeWhile_path (hq : 63 ∉ path) (rest : Bytes) :
    (path ++ rest).takeWhile (fun b => decide (b ≠ 63)) =
      path ++ rest.takeWhile fun b => decide (b ≠ 63) := by
  refine List.takeWhile_append_of_pos fun b hb => ?_
  have hne : b ≠ 63 := fun h => hq (h ▸ hb)
  simpa using hne

theorem dynamic_of_program {os : Os} {target : Target} {filename cgiargs : Bytes}
    (h : answerGet os target = .program filename cgiargs) : target.isStatic = false := by
  by_contra hs
  rw [Bool.not_eq_false] at hs
  rw [answerGet] at h
  split at h
  · cases h
  · rw [if_pos hs] at h
    split at h
    · cases h
    · split at h <;> cases h

theorem static_filename_ne (below below' : UInt8) :
    str "./public/" ++ withQuery path query ++ homeSuffix (withQuery path query) below ≠
      str "./public/" ++ path ++ homeSuffix path below' := by
  intro h
  simp only [withQuery, List.append_assoc, List.append_cancel_left_eq, List.cons_append] at h
  rcases homeSuffix_cases path below' with hs | hs
  · rw [hs] at h
    cases h
  · have hhead := congrArg List.head? (h.trans hs)
    have hne : (63 : UInt8) ≠ 104 := by decide
    exact hne (Option.some.inj hhead)

theorem home_page : str "./public/home.html" = str "./public/" ++ str "home.html" := by decide

theorem home_of_static (hne : path ≠ []) {below : UInt8}
    (h : str "./public/home.html" = str "./public/" ++ path ++ homeSuffix path below) :
    path = str "home.html" := by
  rw [home_page, List.append_assoc, List.append_cancel_left_eq] at h
  rcases homeSuffix_cases path below with hs | hs
  · rw [hs, List.append_nil] at h
    exact h.symm
  · rw [hs] at h
    exact absurd (List.append_left_eq_self.1 h.symm) hne

/-- The query does not matter where `..` in the path has already chosen the page, where
`..` in the query chooses the page that the path names, and where the path is one of a
program and the query leaves it so. -/
def Harmless (path query : Bytes) : Prop :=
  str ".." <:+: path ∨ (str ".." <:+: query ∧ path = str "home.html") ∨
    (¬ str ".." <:+: query ∧ str "cgi" <:+: path)

instance (path query : Bytes) : Decidable (Harmless path query) := by
  unfold Harmless
  infer_instance

theorem separate_of_target (hclass : ∀ old,
    (requestParseURI (withQuery path query) old).filename = (requestParseURI path old).filename ∧
      (requestParseURI (withQuery path query) old).isStatic = (requestParseURI path old).isStatic) :
    Separate path query where
  filename old := (hclass old).1
  isStatic old := (hclass old).2
  run os old filename cgiargs h := by
    have hdynamic := dynamic_of_program h
    rw [(hclass old).2] at hdynamic
    exact cgi_of_dynamic hdynamic

theorem separate_of_harmless (hq : 63 ∉ path) (h : Harmless path query) : Separate path query := by
  apply separate_of_target
  intro old
  by_cases hup : str ".." <:+: path
  · rw [parse_up (up_withQuery.2 (.inl hup)), parse_up hup]
    exact ⟨rfl, rfl⟩
  · rcases h.resolve_left hup with ⟨hquery, rfl⟩ | ⟨hquery, hcgi⟩
    · have hlast : homeSuffix (str "home.html") old.below = [] := by
        rw [homeSuffix_congr (by decide) _ 0]
        decide
      rw [parse_up (up_withQuery.2 (.inr hquery)), parse_static hup (by decide), hlast,
        List.append_nil]
      exact ⟨home_page, rfl⟩
    · have hup' : ¬ str ".." <:+: withQuery path query := by
        rw [up_withQuery, not_or]
        exact ⟨hup, hquery⟩
      rw [parse_dynamic hup' (cgi_withQuery.2 (.inl hcgi)), parse_dynamic hup hcgi,
        withQuery, takeWhile_path hq, ← List.append_nil path, takeWhile_path hq]
      simp

theorem harmless_of_separate (hne : path ≠ []) (old : Locals) (h : Separate path query) :
    Harmless path query := by
  by_cases hup : str ".." <:+: path
  · exact .inl hup
  have hname := h.filename old
  have hclass := h.isStatic old
  by_cases hquery : str ".." <:+: query
  · right; left
    rw [parse_up (up_withQuery.2 (.inr hquery))] at hname hclass
    have hcgi : ¬ str "cgi" <:+: path := fun hcgi => by
      rw [parse_dynamic hup hcgi] at hclass
      cases hclass
    rw [parse_static hup hcgi] at hname
    exact ⟨hquery, home_of_static hne hname⟩
  · right; right
    refine ⟨hquery, by_contra fun hcgi => ?_⟩
    have hup' : ¬ str ".." <:+: withQuery path query := by
      rw [up_withQuery, not_or]
      exact ⟨hup, hquery⟩
    rw [parse_static hup hcgi] at hname hclass
    by_cases hcgi' : str "cgi" <:+: query
    · rw [parse_dynamic hup' (cgi_withQuery.2 (.inr hcgi'))] at hclass
      cases hclass
    · have hneither : ¬ str "cgi" <:+: withQuery path query := by
        rw [cgi_withQuery, not_or]
        exact ⟨hcgi, hcgi'⟩
      rw [parse_static hup' hneither] at hname
      exact static_filename_ne _ _ hname

/-- Of the three branches only the one for programs cuts the query off, and all tests
look at the whole URI. -/
theorem separate_iff (hne : path ≠ []) (hq : 63 ∉ path) : Separate path query ↔ Harmless path query :=
  ⟨harmless_of_separate hne unset, separate_of_harmless hq⟩

theorem separate_iff_program : Separate (str "cgi-bin/a.cgi") (str "x=1") :=
  (separate_iff (by decide) (by decide)).2 (by decide)

/-- A static file is not found behind its query, and a program is run because the query
says so. -/
theorem query_decides : ¬ Separate (str "a") (str "x=1") ∧ ¬ Separate (str "output") (str "cgi") := by
  have ha : ¬ Harmless (str "a") (str "x=1") := by decide
  have houtput : ¬ Harmless (str "output") (str "cgi") := by decide
  exact ⟨fun h => ha (harmless_of_separate (by decide) unset h),
    fun h => houtput (harmless_of_separate (by decide) unset h)⟩

end WebServer.RequestUris
