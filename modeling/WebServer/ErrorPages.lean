import WebServer.Decimals
import WebServer.NameLengths

namespace WebServer.ErrorPages

open Message Process Segel RequestHandle Answers HeaderReading RequestUris StaleBuffers NameLengths
open RequestQueue (Timeval ThreadsStats)

variable {line : Bytes} {found old : Locals} {os : Os} {arrival dispatch : Timeval}
  {stats : ThreadsStats}

def Long (n : Int) : Prop := -2 ^ 63 ≤ n ∧ n < 2 ^ 63

theorem Long.length {n : Int} (h : Long n) : (decimal n.natAbs).length ≤ 19 := by
  have hn : n.natAbs < 10 ^ 19 := by
    obtain ⟨hlow, hhigh⟩ := h
    omega
  exact decimal_length hn (by decide)

theorem Long.signed_length {n : Int} (h : Long n) : (signed n).length ≤ 20 := by
  have hlen := h.length
  rw [signed]
  split
  · exact Nat.succ_le_succ hlen
  · omega

theorem Long.padded_length {n : Int} (h : Long n) : (padded 6 n).length ≤ 20 := by
  have hlen := h.length
  rw [padded]
  split
  · rw [List.length_cons, List.length_append, List.length_replicate]
    omega
  · rw [List.length_append, List.length_replicate]
    omega

structure Numbers (stats : ThreadsStats) (arrival dispatch : Timeval) : Prop where
  arrival : Long arrival.sec ∧ Long arrival.usec
  dispatch : Long dispatch.sec ∧ Long dispatch.usec
  id : Long stats.id
  total : Long stats.totalReq
  static : Long stats.statReq
  dynamic : Long stats.dynmReq
  post : Long stats.postReq

theorem appendStats_length (h : Numbers stats arrival dispatch) (buf : Bytes) :
    (appendStats buf stats arrival dispatch).length ≤ buf.length + 500 := by
  have h₁ := h.arrival.1.signed_length
  have h₂ := h.arrival.2.padded_length
  have h₃ := h.dispatch.1.signed_length
  have h₄ := h.dispatch.2.padded_length
  have h₅ := h.id.signed_length
  have h₆ := h.total.signed_length
  have h₇ := h.static.signed_length
  have h₈ := h.dynamic.signed_length
  have h₉ := h.post.signed_length
  have htimes : (str "Stat-Req-Arrival:: ").length = 19 ∧ (str "Stat-Req-Dispatch:: ").length = 20 ∧
      (str ".").length = 1 := by decide
  have hcounts : (str "Stat-Thread-Id:: ").length = 17 ∧ (str "Stat-Thread-Count:: ").length = 20 ∧
      (str "Stat-Thread-Static:: ").length = 21 ∧ (str "Stat-Thread-Dynamic:: ").length = 22 ∧
      (str "Stat-Thread-Post:: ").length = 19 := by decide
  have hends : (str "\r\n").length = 2 ∧ (str "\r\n\r\n").length = 4 := by decide
  simp only [appendStats, List.length_append]
  omega

/-- Where `requestHandle` and what it calls can call `requestError`. The two branches
behind `Open` and `Mmap` have the texts of `unreadable`. -/
inductive Site
  | notFound
  | unreadable
  | unrunnable
  | empty
  | notImplemented
  deriving DecidableEq

def Site.errnum : Site → Bytes
  | .notFound => str "404"
  | .unreadable | .unrunnable | .empty => str "403"
  | .notImplemented => str "501"

def Site.shortmsg : Site → Bytes
  | .notFound => str "Not found"
  | .unreadable | .unrunnable | .empty => str "Forbidden"
  | .notImplemented => str "Not Implemented"

def Site.longmsg : Site → Bytes
  | .notFound => str "OS-HW3 Server could not find this file"
  | .unreadable => str "OS-HW3 Server could not read this file"
  | .unrunnable => str "OS-HW3 Server could not run this CGI program"
  | .empty => str "OS-HW3 Server cannot map empty file"
  | .notImplemented => str "OS-HW3 Server does not implement this method"

def Site.cause (site : Site) (found : Locals) : Bytes :=
  match site with
  | .notImplemented => found.method
  | _ => (requestParseURI found.uri found).filename

def Site.reply (site : Site) (cause : Bytes) : Reply :=
  match site with
  | .empty => .emptyFile cause
  | _ => .error cause site.errnum site.shortmsg site.longmsg

/-- What `requestError` builds in `body`. -/
def Site.page (site : Site) (cause : Bytes) : Bytes :=
  errorPage cause site.errnum site.shortmsg site.longmsg

def Site.pieces (site : Site) (cause : Bytes) (arrival dispatch : Timeval) (stats : ThreadsStats) :
    List Bytes :=
  [str "HTTP/1.0 " ++ site.errnum ++ str " " ++ site.shortmsg ++ str "\r\n",
    str "Content-Type: text/html\r\n",
    appendStats (str "Content-Length: " ++ decimal (site.page cause).length ++ str "\r\n") stats
      arrival dispatch]

theorem requestError_pieces (site : Site) (cause : Bytes) (arrival dispatch : Timeval)
    (stats : ThreadsStats) : ∃ p₁ p₂ p₃, site.pieces cause arrival dispatch stats = [p₁, p₂, p₃] ∧
      requestError cause site.errnum site.shortmsg site.longmsg arrival dispatch stats = (do
        RioWriten p₁ p₁.length
        printf p₁
        RioWriten p₂ p₂.length
        printf p₂
        RioWriten p₃ p₃.length
        printf p₃
        RioWriten (site.page cause) (site.page cause).length
        printf (site.page cause)) :=
  ⟨_, _, _, rfl, rfl⟩

def IsError : Reply → Prop
  | .error _ _ _ _ | .emptyFile _ => True
  | .file _ _ | .program _ _ | .log => False

theorem answer_site (h : IsError (answer os found)) :
    ∃ site : Site, answer os found = site.reply (site.cause found) := by
  rw [answer] at h ⊢
  split
  · next hget =>
    rw [if_pos hget] at h
    rw [answerGet] at h ⊢
    split
    · exact ⟨.notFound, rfl⟩
    · next sbuf hstat =>
      rw [hstat] at h
      dsimp only at h
      split
      · next hs =>
        rw [if_pos hs] at h
        split
        · exact ⟨.unreadable, rfl⟩
        · next hmode =>
          rw [if_neg hmode] at h
          split
          · exact ⟨.empty, rfl⟩
          · next hsize =>
            rw [if_neg hsize] at h
            exact absurd h id
      · next hs =>
        rw [if_neg hs] at h
        split
        · exact ⟨.unrunnable, rfl⟩
        · next hmode =>
          rw [if_neg hmode] at h
          exact absurd h id
  · next hget =>
    rw [if_neg hget] at h
    split
    · next hpost =>
      rw [if_pos hpost] at h
      exact absurd h id
    · exact ⟨.notImplemented, rfl⟩

def Site.room : Site → Nat
  | .notFound | .unreadable => 8052
  | .unrunnable => 8046
  | .empty => 8055
  | .notImplemented => 8040

theorem page_length (site : Site) (cause : Bytes) :
    (site.page cause).length + site.room = cause.length + 8191 := by
  have h : ∀ site : Site, (errorPage [] site.errnum site.shortmsg site.longmsg).length + site.room =
      8191 := by
    intro site
    cases site <;> decide +kernel
  have hpage : (site.page cause).length = cause.length +
      (errorPage [] site.errnum site.shortmsg site.longmsg).length := by
    simp only [Site.page, errorPage, List.length_append, List.length_nil]
    omega
  have hroom := h site
  omega

/-- What of the request line is named on the page leaves room for the rest of it. -/
def Site.Within (site : Site) (found : Locals) : Prop :=
  match site with
  | .notImplemented => found.method.length ≤ 8040
  | .notFound | .unreadable => NameWithin 8043 found.uri
  | .unrunnable => NameWithin 8037 found.uri
  | .empty => NameWithin 8046 found.uri

theorem page_fits (site : Site) (found : Locals) :
    Fits (site.page (site.cause found)) ↔ site.Within found := by
  have hlen := page_length site (site.cause found)
  have hfits : Fits (site.page (site.cause found)) ↔ (site.cause found).length ≤ site.room := by
    rw [Fits, MAXLINE]
    omega
  rw [hfits]
  cases site with
  | notImplemented => exact Iff.rfl
  | notFound | unreadable | unrunnable | empty => exact filename_within (by decide) found

/-- The page and what is built in `buf` fit, with their terminators. -/
def Site.Safe (site : Site) (found : Locals) : Prop :=
  Fits (site.page (site.cause found)) ∧ ∀ arrival dispatch stats, Numbers stats arrival dispatch →
    ∀ piece ∈ site.pieces (site.cause found) arrival dispatch stats, Fits piece

theorem pieces_fit {site : Site} {cause : Bytes} (hcause : cause.length ≤ 8209)
    (h : Numbers stats arrival dispatch) :
    ∀ piece ∈ site.pieces cause arrival dispatch stats, Fits piece := by
  have hpage := page_length site cause
  have hdecimal : (decimal (site.page cause).length).length ≤ 19 :=
    decimal_length (by omega) (by decide)
  have hstats := appendStats_length h
    (str "Content-Length: " ++ decimal (site.page cause).length ++ str "\r\n")
  have hname : (str "Content-Length: ").length = 16 ∧ (str "\r\n").length = 2 := by decide
  simp only [List.length_append] at hstats
  simp only [Site.pieces, List.forall_mem_cons, List.not_mem_nil, false_imp_iff, implies_true,
    and_true]
  refine ⟨?_, by decide, ?_⟩
  · cases site <;> decide
  · rw [Fits, MAXLINE]
    omega

theorem cause_length (hd : Delivered line) (held : Held old) (site : Site) :
    (site.cause (sscanf line old)).length ≤ 8209 := by
  obtain ⟨hmethod, huri, -⟩ := sscanf_fits (Delivered.length_lt hd) held
  have hname := filename_length_le (sscanf line old).uri (sscanf line old)
  rw [Fits, MAXLINE] at hmethod huri
  cases site with
  | notImplemented => exact Nat.le_trans (Nat.le_of_succ_le hmethod) (by decide)
  | _ => exact Nat.le_trans hname (by omega)

/-- Every call of `requestError` stays inside its arrays if and only if the text of the
client that it shows is short enough. -/
theorem error_pages_fit_iff (hd : Delivered line) (held : Held old) :
    (IsError (answer os (sscanf line old)) →
      ∃ site : Site, answer os (sscanf line old) = site.reply (site.cause (sscanf line old))) ∧
    ∀ site : Site, site.Safe (sscanf line old) ↔ site.Within (sscanf line old) :=
  ⟨answer_site, fun site => (and_iff_left fun _ _ _ h => pieces_fit (cause_length hd held site) h).trans
    (page_fits site _)⟩

theorem error_pages_fit_iff_root :
    Site.notFound.Safe (sscanf (getLine (str "GET") (str "/")) unset) := by
  have hd : Delivered (getLine (str "GET") (str "/")) :=
    getLine_delivered (by decide +kernel) (by decide +kernel) (by decide +kernel)
  refine ((@error_pages_fit_iff _ _ .bare hd unset_held).2 .notFound).2 ?_
  have huri : (sscanf (getLine (str "GET") (str "/")) unset).uri = str "/" := by decide +kernel
  rw [Site.Within, huri]
  exact .inr (.inl ⟨by decide, by decide⟩)

theorem answer_bare (hget : isGet found = true) :
    answer .bare found = Site.notFound.reply (Site.notFound.cause found) := by
  rw [answer, if_pos hget]
  rfl

theorem page_overflow : Delivered (getLine (str "GET") (directory 8100)) ∧
    answer .bare (sscanf (getLine (str "GET") (directory 8100)) unset) =
      Site.notFound.reply (Site.notFound.cause (sscanf (getLine (str "GET") (directory 8100)) unset)) ∧
    Fits (Site.notFound.cause (sscanf (getLine (str "GET") (directory 8100)) unset)) ∧
    ¬ Site.notFound.Safe (sscanf (getLine (str "GET") (directory 8100)) unset) := by
  refine ⟨getLine_directory (by decide), ?_, ?_, fun h => ?_⟩
  · exact answer_bare (get_directory 8100)
  · rw [Site.cause, filename_fits, sscanf_directory, directory_within]
    · decide
    · nofun
  · have hwithin := (page_fits .notFound _).1 h.1
    rw [Site.Within, sscanf_directory, directory_within] at hwithin
    exact absurd hwithin (by decide)

end WebServer.ErrorPages
