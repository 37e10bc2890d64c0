import WebServer.Sending

namespace WebServer.Answers

open Message Process Segel RequestHandle Sending
open RequestQueue (Timeval ThreadsStats)
open ServerLog (int32)

inductive Reply
  | error (cause errnum shortmsg longmsg : Bytes)
  | emptyFile (filename : Bytes)
  | file (filename : Bytes) (size : Int)
  | program (filename cgiargs : Bytes)
  | log
  deriving DecidableEq

def answerGet (os : Os) (target : Target) : Reply :=
  match os.stat target.filename with
  | none => .error target.filename (str "404") (str "Not found")
      (str "OS-HW3 Server could not find this file")
  | some sbuf =>
    if target.isStatic then
      if ¬ sbuf.isReg ∨ ¬ sbuf.irusr then
        .error target.filename (str "403") (str "Forbidden")
          (str "OS-HW3 Server could not read this file")
      else if int32 sbuf.size = 0 then .emptyFile target.filename
      else .file target.filename (int32 sbuf.size)
    else if ¬ sbuf.isReg ∨ ¬ sbuf.ixusr then
      .error target.filename (str "403") (str "Forbidden")
        (str "OS-HW3 Server could not run this CGI program")
    else .program target.filename target.cgiargs

def isGet (found : Locals) : Bool := strcasecmp found.method (str "GET")

def answer (os : Os) (found : Locals) : Reply :=
  if isGet found then answerGet os (requestParseURI found.uri found)
  else if strcasecmp found.method (str "POST") then .log
  else .error found.method (str "501") (str "Not Implemented")
    (str "OS-HW3 Server does not implement this method")

def Reply.count (stats : ThreadsStats) : Reply → ThreadsStats
  | .error _ _ _ _ | .emptyFile _ => { stats with totalReq := stats.totalReq + 1 }
  | .file _ _ => { stats with totalReq := stats.totalReq + 1, statReq := stats.statReq + 1 }
  | .program _ _ => { stats with totalReq := stats.totalReq + 1, dynmReq := stats.dynmReq + 1 }
  | .log => { stats with totalReq := stats.totalReq + 1, postReq := stats.postReq + 1 }

def errorPage (cause errnum shortmsg longmsg : Bytes) : Bytes :=
  str "<html><title>OS-HW3 Error</title>" ++ str "<body bgcolor=fffff>\r\n" ++
    (errnum ++ str ": " ++ shortmsg ++ str "\r\n") ++
    (str "<p>" ++ longmsg ++ str ": " ++ cause ++ str "\r\n") ++ str "<hr>OS-HW3 Web Server\r\n"

def errorLines (errnum shortmsg page : Bytes) : List Bytes :=
  [str "HTTP/1.0 " ++ errnum ++ str " " ++ shortmsg, str "Content-Type: text/html",
    str "Content-Length: " ++ decimal page.length]

def okLines : List Bytes := [str "HTTP/1.0 200 OK", str "Server: OS-HW3 Web Server"]

def contentLines (length : Int) (filetype : Bytes) : List Bytes :=
  okLines ++ [str "Content-Length: " ++ signed length, str "Content-Type: " ++ filetype]

/-- The header lines before those of `append_stats` -/
def Reply.lines (os : Os) : Reply → List Bytes
  | .error cause errnum shortmsg longmsg =>
      errorLines errnum shortmsg (errorPage cause errnum shortmsg longmsg)
  | .emptyFile filename => errorLines (str "403") (str "Forbidden")
      (errorPage filename (str "403") (str "Forbidden") (str "OS-HW3 Server cannot map empty file"))
  | .file filename size => contentLines size (requestGetFiletype filename)
  | .program _ _ => okLines
  | .log => contentLines (int32 os.log.length) (str "text/plain")

/-- What a CGI program writes. `stdout` is what the process has not yet flushed. -/
def programOutput (os : Os) (stdout filename cgiargs : Bytes) : Bytes :=
  if os.setenvOk ∧ os.dup2Ok then (os.execve filename cgiargs).getD stdout else []

def Reply.body (os : Os) (stdout : Bytes) : Reply → Bytes
  | .error cause errnum shortmsg longmsg => errorPage cause errnum shortmsg longmsg
  | .emptyFile filename =>
      errorPage filename (str "403") (str "Forbidden") (str "OS-HW3 Server cannot map empty file")
  | .file filename size => (os.mapped ((os.openFd filename).getD 0)).take size.toNat
  | .program filename cgiargs => programOutput os stdout filename cgiargs
  | .log => (os.log ++ [0]).take (int32 os.log.length % 2 ^ 64).toNat

/-- Header lines, those of `append_stats`, an empty line and a body -/
def response (lines : List Bytes) (stats : ThreadsStats) (arrival dispatch : Timeval)
    (body : Bytes) : Bytes :=
  render (lines ++ statsLines stats arrival dispatch) ++ crlf ++ body

def statsBlock (stats : ThreadsStats) (arrival dispatch : Timeval) : Bytes :=
  render (statsLines stats arrival dispatch) ++ crlf

/-- The text that a reply adds to the log. The entry for an empty file counts it. -/
def Reply.entries (stats : ThreadsStats) (arrival dispatch : Timeval) : Reply → List Bytes
  | .file filename _ | .emptyFile filename =>
      [statsBlock (Reply.count stats (.file filename 0)) arrival dispatch]
  | .program filename cgiargs =>
      [statsBlock (Reply.count stats (.program filename cgiargs)) arrival dispatch]
  | .error _ _ _ _ | .log => []

/-- The calls a reply makes besides those on the connection succeed. -/
def Reply.Works (os : Os) : Reply → Prop
  | .error _ _ _ _ => True
  | .emptyFile filename => os.openFd filename ≠ none ∧ os.closeOk
  | .file filename size => ∃ fd, os.openFd filename = some fd ∧ os.mmapOk ∧ os.closeOk ∧
      os.munmapOk ∧ 0 ≤ size ∧ size.toNat ≤ (os.mapped fd).length
  | .program _ _ => os.fork ≠ none ∧ os.waitpidOk
  | .log => os.log.length < 2 ^ 31

variable {w : World} {ok : Prop} {arrival dispatch : Timeval} {stats : ThreadsStats}

theorem render_append (a b : List Bytes) : render (a ++ b) = render a ++ render b :=
  List.flatMap_append

theorem appendStats_render (lines : List Bytes) (stats : ThreadsStats)
    (arrival dispatch : Timeval) :
    appendStats (render lines) stats arrival dispatch =
      render (lines ++ statsLines stats arrival dispatch) ++ crlf := by
  have h₁ : str "\r\n" = crlf := by decide
  have h₂ : str "\r\n\r\n" = crlf ++ crlf := by decide
  rw [render_append]
  simp [appendStats, statsLines, render, h₁, h₂, List.append_assoc]

theorem requestError_ensures (cause errnum shortmsg longmsg : Bytes) :
    (requestError cause errnum shortmsg longmsg arrival dispatch stats).Ensures w
      (fun _ w' => Sends (response (errorLines errnum shortmsg
        (errorPage cause errnum shortmsg longmsg)) stats arrival dispatch
        (errorPage cause errnum shortmsg longmsg)) w w') (Dropped ok w) := by
  have hcrlf : str "\r\n" = crlf := by decide
  have htype : str "Content-Type: text/html\r\n" = str "Content-Type: text/html" ++ crlf := by
    decide
  simp only [requestError, ← errorPage.eq_1]
  generalize errorPage cause errnum shortmsg longmsg = page
  rw [hcrlf, htype]
  apply (sends_nil w.stdout w.query).send_bind
  intro w₁ h₁
  apply h₁.printf_bind
  intro w₂ h₂
  apply h₂.send_bind
  intro w₃ h₃
  apply h₃.printf_bind
  intro w₄ h₄
  apply h₄.send_bind
  intro w₅ h₅
  apply h₅.printf_bind
  intro w₆ h₆
  apply h₆.send_bind
  intro w₇ h₇
  apply (printf_ensures _).mono _ fun _ hd => hd
  intro _ w₈ h₈
  have h := h₇.trans h₈
  have hlast := appendStats_render [str "Content-Length: " ++ decimal page.length] stats
    arrival dispatch
  rw [render, List.flatMap_singleton] at hlast
  rw [hlast] at h
  simpa [response, errorLines, render] using h

theorem okLines_render :
    str "HTTP/1.0 200 OK\r\n" ++ str "Server: OS-HW3 Web Server\r\n" = render okLines := by
  decide

theorem contentLines_render (length : Int) (filetype : Bytes) :
    str "HTTP/1.0 200 OK\r\n" ++ str "Server: OS-HW3 Web Server\r\n" ++
        (str "Content-Length: " ++ signed length ++ str "\r\n") ++
        (str "Content-Type: " ++ filetype ++ str "\r\n") =
      render (contentLines length filetype) := by
  have hcrlf : str "\r\n" = crlf := by decide
  rw [okLines_render, hcrlf]
  simp [contentLines, render]

theorem getLog_ensures {E : World → Prop} : getLog.Ensures w
    (fun r w' => r = (int32 w.os.log.length, w.os.log ++ [0]) ∧ w = w') E :=
  ⟨rfl, rfl⟩

theorem int32_small {n : Nat} (hn : n < 2 ^ 31) : int32 n = n := by
  rw [int32, Int.bmod_def]
  omega

theorem int32_lt (n : Int) : int32 n < 2 ^ 31 := by
  rw [int32, Int.bmod_def]
  omega

theorem requestServePost_ensures (hlog : ok → Reply.Works w.os .log) :
    (requestServePost arrival dispatch stats).Ensures w
      (fun _ w' => Sends (response (Reply.lines w.os .log) stats arrival dispatch
        (Reply.body w.os w.stdout .log)) w w') (Dropped ok w) := by
  simp only [requestServePost, contentLines_render, appendStats_render]
  apply getLog_ensures.bind _ fun _ hd => hd
  intro r w₁ ⟨hr, hw⟩
  subst hr hw
  dsimp only
  apply (sends_nil w.stdout w.query).send_bind
  intro w₁ h₁
  have hn : ok → (int32 w.os.log.length % 2 ^ 64).toNat ≤ (w.os.log ++ [0]).length := by
    intro hok
    rw [int32_small (hlog hok), List.length_append]
    omega
  simp only [Reply.lines, Reply.body]
  generalize (int32 w.os.log.length % 2 ^ 64).toNat = n at hn ⊢
  apply (RioWriten_ensures _ _ hn).mono _ fun _ hd => h₁.dropped hd
  rintro - w₂ ⟨-, -, h₂⟩
  exact h₁.trans h₂

theorem Open_ensures (pathname : Bytes) (hopen : ok → w.os.openFd pathname ≠ none) :
    (Open pathname).Ensures w
      (fun fd w' => ∃ n : Nat, w.os.openFd pathname = some n ∧ fd = n ∧ w = w') (Dropped ok w) := by
  unfold Open Proc.Ensures
  beta_reduce
  cases h : w.os.openFd pathname with
  | some n => exact ⟨n, rfl, rfl, rfl⟩
  | none => exact ⟨rfl, fun hok => absurd h (hopen hok)⟩

theorem Mmap_ensures (len fd : Int) (hmap : ok → w.os.mmapOk ∧ 0 ≤ len) :
    (Mmap len fd).Ensures w
      (fun r w' => 0 ≤ len ∧ r = some ((w.os.mapped fd).take len.toNat) ∧ w = w')
      (Dropped ok w) := by
  unfold Mmap Proc.Ensures
  beta_reduce
  by_cases h : w.os.mmapOk ∧ 0 ≤ len
  · rw [if_pos h]
    exact ⟨h.2, rfl, rfl⟩
  · rw [if_neg h]
    exact ⟨rfl, fun hok => absurd (hmap hok) h⟩

theorem requestServeStatic_empty (filename : Bytes)
    (hworks : ok → Reply.Works w.os (.emptyFile filename)) :
    (requestServeStatic filename 0 arrival dispatch stats).Ensures w
      (fun stats' w' => stats' = { stats with statReq := stats.statReq - 1 } ∧
        Sends (response (Reply.lines w.os (.emptyFile filename)) stats' arrival dispatch
          (Reply.body w.os w.stdout (.emptyFile filename))) w w') (Dropped ok w) := by
  rw [requestServeStatic]
  apply (Open_ensures filename fun hok => (hworks hok).1).bind _ fun _ hd => hd
  rintro _ _ ⟨fd, -, rfl, rfl⟩
  rw [if_neg (by omega), if_pos rfl]
  apply (check_ensures fun hok => (hworks hok).2).bind _ fun _ hd => hd
  rintro - _ rfl
  apply (requestError_ensures _ _ _ _).bind _ fun _ hd => hd
  intro _ w' h
  exact ⟨rfl, h⟩

theorem requestServeStatic_file {filename : Bytes} {size : Int} (hsize : size ≠ 0)
    (hworks : ok → Reply.Works w.os (.file filename size)) :
    (requestServeStatic filename size arrival dispatch stats).Ensures w
      (fun stats' w' => stats' = stats ∧ w.os.openFd filename ≠ none ∧
        (Reply.body w.os w.stdout (.file filename size)).length = size ∧
        Sends (response (Reply.lines w.os (.file filename size)) stats arrival dispatch
          (Reply.body w.os w.stdout (.file filename size))) w w') (Dropped ok w) := by
  rw [requestServeStatic]
  have hopen : ok → w.os.openFd filename ≠ none := fun hok => by
    obtain ⟨fd, hfd, -⟩ := hworks hok
    simp [hfd]
  apply (Open_ensures filename hopen).bind _ fun _ hd => hd
  rintro _ _ ⟨fd, hfd, rfl, rfl⟩
  rw [if_neg (by omega), if_neg hsize]
  have hmap : ok → w.os.mmapOk ∧ 0 ≤ size := fun hok => by
    obtain ⟨_, -, hm, -, -, hs, -⟩ := hworks hok
    exact ⟨hm, hs⟩
  apply (Mmap_ensures size fd hmap).bind _ fun _ hd => hd
  rintro _ _ ⟨hs, rfl, rfl⟩
  dsimp only
  have hclose : ok → w.os.closeOk := fun hok => by
    obtain ⟨_, -, -, hc, -⟩ := hworks hok
    exact hc
  apply (check_ensures hclose).bind _ fun _ hd => hd
  rintro - _ rfl
  rw [contentLines_render, appendStats_render]
  apply (sends_nil w.stdout w.query).send_bind
  intro w₁ h₁
  have hlen : ok → size.toNat ≤ ((w.os.mapped fd).take size.toNat).length := fun hok => by
    obtain ⟨fd', hfd', -, -, -, -, hl⟩ := hworks hok
    obtain rfl : fd' = fd := Option.some.inj (hfd'.symm.trans hfd)
    rw [List.length_take]
    omega
  apply (RioWriten_ensures _ _ hlen).bind _ fun _ hd => h₁.dropped hd
  rintro - w₂ ⟨hl, -, h₂⟩
  have h₁₂ := h₁.trans h₂
  have hunmap : ok → w₂.os.munmapOk := fun hok => by
    obtain ⟨_, -, -, -, hu, -⟩ := hworks hok
    rw [h₁₂.os]
    exact hu
  apply (check_ensures hunmap).bind _ fun _ hd => h₁₂.dropped hd
  rintro - _ rfl
  have hbody : Reply.body w.os w.stdout (.file filename size) =
      (w.os.mapped fd).take size.toNat := by simp [Reply.body, hfd]
  refine ⟨rfl, by simp [hfd], ?_, ?_⟩
  · rw [List.length_take] at hl
    rw [hbody, List.length_take]
    omega
  · rw [hbody]
    simpa [response, Reply.lines, List.take_take] using h₁₂

theorem child_exits (filename cgiargs : Bytes) : ∃ w', (do
    Setenv cgiargs
    Dup2
    Execve filename : Sys Unit) w = .exited w' ∧
      w'.sent = w.sent ++ programOutput w.os w.stdout filename cgiargs := by
  simp only [bind_apply, Setenv, Dup2, check, Execve, programOutput]
  cases w.os.setenvOk
  · exact ⟨_, rfl, by simp⟩
  cases hd : w.os.dup2Ok
  · exact ⟨_, by simp [hd]; rfl, by simp⟩
  cases he : w.os.execve filename cgiargs with
  | none => exact ⟨_, by simp [hd, he]; rfl, by simp⟩
  | some output => exact ⟨_, by simp [hd, he]; rfl, by simp⟩

theorem Fork_ensures {child : Sys Unit} {output : Bytes} (hfork : ok → w.os.fork ≠ none)
    (hchild : ∃ w', child w = .exited w' ∧ w'.sent = w.sent ++ output) :
    (Fork child).Ensures w (fun _ w' => Sends output w w') (Dropped ok w) := by
  obtain ⟨w', hc, hs⟩ := hchild
  unfold Fork Proc.Ensures
  beta_reduce
  cases hf : w.os.fork with
  | none => exact ⟨rfl, fun hok => absurd hf (hfork hok)⟩
  | some pid =>
      simp only [hc]
      exact ⟨rfl, hs, rfl, List.suffix_rfl⟩

theorem requestServeDynamic_ensures (filename cgiargs : Bytes)
    (hworks : ok → Reply.Works w.os (.program filename cgiargs)) :
    (requestServeDynamic filename cgiargs arrival dispatch stats).Ensures w
      (fun _ w' => Sends (response (Reply.lines w.os (.program filename cgiargs)) stats arrival
        dispatch (Reply.body w.os w.stdout (.program filename cgiargs))) w w') (Dropped ok w) := by
  simp only [requestServeDynamic, okLines_render, appendStats_render]
  apply (send_ensures _).bind _ fun _ hd => hd
  rintro - w₁ ⟨hout, h₁⟩
  have hfork : ok → w₁.os.fork ≠ none := fun hok => h₁.os ▸ (hworks hok).1
  apply (Fork_ensures hfork (child_exits filename cgiargs)).bind _ fun _ hd => h₁.dropped hd
  intro _ w₂ h₂
  have h₁₂ := h₁.trans h₂
  have hwait : ok → w₂.os.waitpidOk := fun hok => h₁₂.os ▸ (hworks hok).2
  apply (check_ensures hwait).mono _ fun _ hd => h₁₂.dropped hd
  rintro - _ rfl
  rw [h₁.os, hout] at h₁₂
  exact h₁₂

/-- The reply is sent from `w` to `w'`, and its entries are added to the log. -/
structure Answered (reply : Reply) (stats : ThreadsStats) (arrival dispatch : Timeval)
    (w w' : World) : Prop where
  sent : w'.sent = w.sent ++ response (reply.lines w.os) (reply.count stats) arrival dispatch
    (reply.body w.os w.stdout)
  logged : w'.logged = w.logged ++ reply.entries stats arrival dispatch
  whole : ∀ {filename size}, reply = .file filename size →
    w.os.openFd filename ≠ none ∧ (reply.body w.os w.stdout).length = size

theorem statsBlock_eq (stats : ThreadsStats) (arrival dispatch : Timeval) :
    appendStats [] stats arrival dispatch = statsBlock stats arrival dispatch :=
  appendStats_render [] stats arrival dispatch

theorem statsBlock_pos (stats : ThreadsStats) (arrival dispatch : Timeval) :
    0 < (statsBlock stats arrival dispatch).length := by
  rw [statsBlock, List.length_append]
  exact Nat.add_pos_right _ (by decide)

theorem addToLog_ensures {data : Bytes} (hd : 0 < data.length) {E : World → Prop} :
    (addToLog data data.length).Ensures w
      (fun _ w' => w'.sent = w.sent ∧ w'.logged = w.logged ++ [data]) E := by
  simp [addToLog, Proc.Ensures, hd]

theorem stat_ensures (filename : Bytes) {E : World → Prop} :
    (stat filename).Ensures w (fun r w' => r = w.os.stat filename ∧ w = w') E :=
  ⟨rfl, rfl⟩

theorem error_answered (cause errnum shortmsg longmsg : Bytes) (stats : ThreadsStats) :
    (do
      requestError cause errnum shortmsg longmsg arrival dispatch
        { stats with totalReq := stats.totalReq + 1 }
      return { stats with totalReq := stats.totalReq + 1 } : Sys ThreadsStats).Ensures w
      (fun stats' w' => stats' = Reply.count stats (.error cause errnum shortmsg longmsg) ∧
        Answered (.error cause errnum shortmsg longmsg) stats arrival dispatch w w')
      (Dropped ok w) := by
  apply (requestError_ensures _ _ _ _).bind _ fun _ hd => hd
  intro _ w' h
  exact ⟨rfl, h.sent, by simpa [Reply.entries] using h.logged, nofun⟩

theorem static_answered (filename : Bytes) (size : Int) {counted : ThreadsStats}
    (hcounted : counted = Reply.count stats (.file filename size)) {reply : Reply}
    (hreply : reply = if size = 0 then .emptyFile filename else .file filename size) :
    (do
      let stats' ← requestServeStatic filename size arrival dispatch counted
      addToLog (statsBlock counted arrival dispatch) (statsBlock counted arrival dispatch).length
      return stats' : Sys ThreadsStats).Ensures w
      (fun stats' w' => stats' = reply.count stats ∧ Answered reply stats arrival dispatch w w')
      (Dropped (reply.Works w.os) w) := by
  by_cases hsize : size = 0
  · rw [if_pos hsize] at hreply
    subst hreply hsize
    apply (requestServeStatic_empty filename id).bind _ fun _ hd => hd
    rintro _ w₁ ⟨rfl, h₁⟩
    apply (addToLog_ensures (statsBlock_pos _ _ _)).bind _ fun _ hd => hd
    rintro - w₂ ⟨hs, hl⟩
    have hc : { counted with statReq := counted.statReq - 1 } =
        Reply.count stats (.emptyFile filename) := by simp [hcounted, Reply.count]
    rw [h₁.sent] at hs
    rw [h₁.logged, hcounted] at hl
    exact ⟨hc, hc ▸ hs, hl, nofun⟩
  · rw [if_neg hsize] at hreply
    subst hreply hcounted
    apply (requestServeStatic_file hsize id).bind _ fun _ hd => hd
    rintro _ w₁ ⟨rfl, hfd, hb, h₁⟩
    apply (addToLog_ensures (statsBlock_pos _ _ _)).bind _ fun _ hd => hd
    rintro - w₂ ⟨hs, hl⟩
    rw [h₁.sent] at hs
    rw [h₁.logged] at hl
    refine ⟨rfl, hs, hl, fun he => ?_⟩
    cases he
    exact ⟨hfd, hb⟩

theorem dynamic_answered (filename cgiargs : Bytes) {counted : ThreadsStats}
    (hcounted : counted = Reply.count stats (.program filename cgiargs)) :
    (do
      requestServeDynamic filename cgiargs arrival dispatch counted
      addToLog (statsBlock counted arrival dispatch) (statsBlock counted arrival dispatch).length
      return counted : Sys ThreadsStats).Ensures w
      (fun stats' w' => stats' = Reply.count stats (.program filename cgiargs) ∧
        Answered (.program filename cgiargs) stats arrival dispatch w w')
      (Dropped (Reply.Works w.os (.program filename cgiargs)) w) := by
  subst hcounted
  apply (requestServeDynamic_ensures filename cgiargs id).bind _ fun _ hd => hd
  intro _ w₁ h₁
  apply (addToLog_ensures (statsBlock_pos _ _ _)).bind _ fun _ hd => hd
  rintro - w₂ ⟨hs, hl⟩
  rw [h₁.sent] at hs
  rw [h₁.logged] at hl
  exact ⟨rfl, hs, hl, nofun⟩

theorem requestGet_answered (target : Target) (stats : ThreadsStats) :
    (requestGet target arrival dispatch { stats with totalReq := stats.totalReq + 1 }).Ensures w
      (fun stats' w' => stats' = (answerGet w.os target).count stats ∧
        Answered (answerGet w.os target) stats arrival dispatch w w')
      (Dropped ((answerGet w.os target).Works w.os) w) := by
  rw [requestGet]
  apply (stat_ensures _).bind _ fun _ hd => hd
  rintro _ _ ⟨rfl, rfl⟩
  rw [answerGet]
  cases w.os.stat target.filename with
  | none => exact error_answered _ _ _ _ _
  | some sbuf =>
      simp only [statsBlock_eq]
      by_cases hst : target.isStatic = true
      · rw [if_pos hst, if_pos hst]
        by_cases hmode : ¬ sbuf.isReg = true ∨ ¬ sbuf.irusr = true
        · rw [if_pos hmode, if_pos hmode]
          exact error_answered _ _ _ _ _
        · rw [if_neg hmode, if_neg hmode]
          exact static_answered _ _ rfl rfl
      · rw [if_neg hst, if_neg hst]
        by_cases hmode : ¬ sbuf.isReg = true ∨ ¬ sbuf.ixusr = true
        · rw [if_pos hmode, if_pos hmode]
          exact error_answered _ _ _ _ _
        · rw [if_neg hmode, if_neg hmode]
          exact dynamic_answered _ _ rfl

end WebServer.Answers
