import WebServer.DynamicResponse

namespace WebServer.LogEntries

open Message Process Segel RequestHandle Answers HeaderReading Framing
open RequestQueue (Timeval ThreadsStats)
open ServerLog (int32)

/-- One request from the call of `requestHandle` to its return. -/
structure Exchange where
  fuel : Nat
  buf : Bytes
  old : Locals
  arrival : Timeval
  dispatch : Timeval
  stats : ThreadsStats
  before : World
  counters : ThreadsStats
  after : World

def Exchange.Runs (e : Exchange) : Prop :=
  requestHandle e.fuel e.buf e.old e.arrival e.dispatch e.stats e.before =
    .returned e.counters e.after

/-- The requests are handled one after the other on a log, which is `log` before
them and `log'` after them. -/
def Handled : (log : List Bytes) → List Exchange → (log' : List Bytes) → Prop
  | log, [], log' => log' = log
  | log, e :: es, log' => e.Runs ∧ e.before.logged = log ∧ Handled e.after.logged es log'

def Exchange.response (e : Exchange) : Bytes := e.after.sent.drop e.before.sent.length

def Exchange.get (e : Exchange) : Bool :=
  match requestLine e.buf e.before with
  | some line => isGet (sscanf line e.old)
  | none => false

def okStatus : Bytes := str "HTTP/1.0 200 OK"

/-- For a GET that is answered with 200, the statistics block in the header of the
response; nothing for any other request. -/
def expected (get : Bool) (response : Bytes) : List Bytes :=
  match parse response with
  | some (lines, _) =>
      if get ∧ lines.head? = some okStatus then [render (lines.filter (statName <+: ·)) ++ crlf]
      else []
  | none => []

def Exchange.expected (e : Exchange) : List Bytes := LogEntries.expected e.get e.response

/-- A GET for a static file that passes the checks and whose size is 0 as an `int`. -/
def Exchange.EmptyStatic (e : Exchange) : Prop :=
  ∃ line, requestLine e.buf e.before = some line ∧ isGet (sscanf line e.old) = true ∧
    let target := requestParseURI (sscanf line e.old).uri (sscanf line e.old)
    target.isStatic = true ∧ ∃ sbuf, e.before.os.stat target.filename = some sbuf ∧
      sbuf.isReg = true ∧ sbuf.irusr = true ∧ int32 sbuf.size = 0

def Fits (get : Bool) : Reply → Prop
  | .error _ errnum shortmsg _ => str "HTTP/1.0 " ++ errnum ++ str " " ++ shortmsg ≠ okStatus
  | .emptyFile _ | .file _ _ | .program _ _ => get = true
  | .log => get = false

theorem answer_fits (os : Os) (found : Locals) : Fits (isGet found) (answer os found) := by
  rw [answer, answerGet]
  split
  · next hget =>
    split
    · simp only [Fits]; decide
    · split
      · split
        · simp only [Fits]; decide
        · split <;> exact hget
      · split
        · simp only [Fits]; decide
        · exact hget
  · next hget =>
    split
    · exact Bool.eq_false_iff.2 hget
    · simp only [Fits]; decide

def Ok : Reply → Bool
  | .file _ _ | .program _ _ => true
  | .error _ _ _ _ | .emptyFile _ | .log => false

theorem expected_response {reply : Reply} {get : Bool} {os : Os} (hf : Front (reply.lines os))
    (hfit : Fits get reply) (stats : ThreadsStats) (arrival dispatch : Timeval) (body : Bytes) :
    expected get (response (reply.lines os) (reply.count stats) arrival dispatch body) =
      if Ok reply then reply.entries stats arrival dispatch else [] := by
  have hhead : (reply.lines os ++ statsLines (reply.count stats) arrival dispatch).head? =
      some (status reply) := by
    rw [List.head?_append, lines_status]
    rfl
  have hok : (get = true ∧ some (status reply) = some okStatus) ↔ Ok reply = true := by
    rw [Option.some_inj]
    cases reply with
    | error cause errnum shortmsg longmsg => exact ⟨fun h => absurd h.2 hfit, nofun⟩
    | emptyFile filename =>
        have hne : str "HTTP/1.0 " ++ str "403" ++ str " " ++ str "Forbidden" ≠ okStatus := by decide
        exact ⟨fun h => absurd h.2 hne, nofun⟩
    | file filename size => exact ⟨fun _ => rfl, fun _ => ⟨hfit, rfl⟩⟩
    | program filename cgiargs => exact ⟨fun _ => rfl, fun _ => ⟨hfit, rfl⟩⟩
    | log => exact ⟨fun h => absurd (h.1.symm.trans hfit) (by decide), nofun⟩
  simp only [expected, hf.parse, hhead, hf.filter_stat, hok]
  cases reply <;> rfl

theorem answer_emptyFile {os : Os} {found : Locals} :
    (∃ filename, answer os found = .emptyFile filename) ↔
      isGet found = true ∧ (requestParseURI found.uri found).isStatic = true ∧
        ∃ sbuf, os.stat (requestParseURI found.uri found).filename = some sbuf ∧
          sbuf.isReg = true ∧ sbuf.irusr = true ∧ int32 sbuf.size = 0 := by
  rw [answer, answerGet]
  by_cases hget : isGet found = true
  · rw [if_pos hget]
    cases hs : os.stat (requestParseURI found.uri found).filename with
    | none => simp
    | some sbuf =>
        by_cases hst : (requestParseURI found.uri found).isStatic = true
        · cases hreg : sbuf.isReg <;> cases husr : sbuf.irusr <;>
            by_cases hsize : int32 sbuf.size = 0 <;> simp [hget, hst, hreg, husr, hsize]
        · cases hreg : sbuf.isReg <;> cases husr : sbuf.ixusr <;> simp [hst, hreg, husr]
  · rw [if_neg hget]
    by_cases hpost : strcasecmp found.method (str "POST") = true
    · simp [hget, hpost]
    · simp [hget, hpost]

theorem replyTo_emptyFile {e : Exchange} :
    (∃ filename, replyTo e.buf e.old e.before = some (.emptyFile filename)) ↔ e.EmptyStatic := by
  rw [replyTo, Exchange.EmptyStatic]
  cases requestLine e.buf e.before with
  | none => simp
  | some line => simpa using answer_emptyFile

theorem Exchange.expected_reply {e : Exchange} {n : Int} {line : Bytes} {rio : Rio} {w₁ : World}
    (hr : RioReadlineb rioReadinitb e.buf MAXLINE e.before = .returned (n, line, rio) w₁) (hn : 0 < n)
    (ha : Answered (answer e.before.os (sscanf line e.old)) e.stats e.arrival e.dispatch e.before
      e.after) :
    e.expected = if Ok (answer e.before.os (sscanf line e.old)) then
      (answer e.before.os (sscanf line e.old)).entries e.stats e.arrival e.dispatch else [] := by
  have hget : e.get = isGet (sscanf line e.old) := by simp [Exchange.get, requestLine, hr, hn]
  rw [Exchange.expected, Exchange.response, ha.sent, List.drop_left, hget]
  exact expected_response (answer_front _ _) (answer_fits _ _) _ _ _ _

theorem logged_of_runs {e : Exchange} (h : e.Runs) :
    (e.EmptyStatic → e.after.logged.length = e.before.logged.length + 1 ∧ e.expected = []) ∧
      (¬ e.EmptyStatic → e.after.logged = e.before.logged ++ e.expected) := by
  rw [← replyTo_emptyFile]
  rcases requestHandle_returned h with ⟨hnone, -, hsent, hlogged⟩ | ⟨reply, hreply, -, ha⟩
  · have hexpected : e.expected = [] := by
      rw [Exchange.expected, Exchange.response, hsent, List.drop_length]
      rfl
    rw [hnone, hlogged, hexpected]
    simp
  · obtain ⟨n, line, rio, w₁, hr, hn, rfl⟩ := replyTo_eq_some.1 hreply
    rw [hreply, e.expected_reply hr hn ha, ha.logged]
    cases answer e.before.os (sscanf line e.old) with
    | emptyFile filename => simp [Ok, Reply.entries]
    | _ => simp [Ok, Reply.entries]

open Classical in
theorem handled_length {log log' : List Bytes} {es : List Exchange} (h : Handled log es log') :
    log'.length = log.length + (es.flatMap Exchange.expected).length +
      es.countP fun e => e.EmptyStatic := by
  induction es generalizing log with
  | nil =>
      obtain rfl : log' = log := h
      simp
  | cons e es ih =>
      obtain ⟨hruns, hlog, hrest⟩ := h
      have hlen := ih hrest
      obtain ⟨hempty, hother⟩ := logged_of_runs hruns
      rw [List.flatMap_cons, List.length_append]
      by_cases he : e.EmptyStatic
      · obtain ⟨hgrow, hnone⟩ := hempty he
        rw [List.countP_cons_of_pos (by simpa using he), hnone]
        rw [hlog] at hgrow
        simp only [List.length_nil]
        omega
      · have hgrow := congrArg List.length (hother he)
        rw [List.countP_cons_of_neg (by simpa using he)]
        rw [hlog, List.length_append] at hgrow
        omega

theorem handled_matches {log log' : List Bytes} {es : List Exchange} (h : Handled log es log')
    (hne : ∀ e ∈ es, ¬ e.EmptyStatic) : log' = log ++ es.flatMap Exchange.expected := by
  induction es generalizing log with
  | nil =>
      obtain rfl : log' = log := h
      simp
  | cons e es ih =>
      obtain ⟨hruns, hlog, hrest⟩ := h
      have hgrow := (logged_of_runs hruns).2 (hne e (by simp))
      rw [ih hrest fun x hx => hne x (by simp [hx]), hgrow, hlog, List.flatMap_cons,
        List.append_assoc]

/-- The log is what the responses say if and only if no request was a GET for an empty
file. -/
theorem log_matches_iff {log log' : List Bytes} {es : List Exchange} (h : Handled log es log') :
    log' = log ++ es.flatMap Exchange.expected ↔ ∀ e ∈ es, ¬ e.EmptyStatic := by
  refine ⟨fun hlog => ?_, handled_matches h⟩
  have hlen := handled_length h
  rw [hlog, List.length_append, Nat.left_eq_add, List.countP_eq_zero] at hlen
  intro e he hempty
  exact hlen e he (by simpa using hempty)

theorem exchange_of_reply {w : World} {reply : Reply} (hreply : replyTo [] unset w = some reply)
    (hc : Clean w.input) (he : HeadersEnd unset (received w.input)) (hw : .failed ∉ w.writes)
    (hworks : reply.Works w.os) :
    ∃ e : Exchange, e.Runs ∧ e.before = w ∧ replyTo e.buf e.old e.before = some reply := by
  have hall : ∀ reply', replyTo [] unset w = some reply' → reply'.Works w.os := by
    intro reply' hreply'
    obtain rfl := Option.some.inj (hreply.symm.trans hreply')
    exact hworks
  obtain ⟨fuel, stats', w', h⟩ :=
    @requestHandle_returns w ⟨1, 5⟩ ⟨0, 7⟩ ⟨3, 0, 0, 0, 0⟩ unset [] hc he hw hall
  exact ⟨⟨fuel, [], unset, ⟨1, 5⟩, ⟨0, 7⟩, ⟨3, 0, 0, 0, 0⟩, w, stats', w'⟩, h, rfl, hreply⟩

theorem log_matches_iff_fetching :
    ∃ e : Exchange, e.before = fetching ∧ e.Runs ∧ e.after.logged = e.expected := by
  obtain ⟨e, hruns, hbefore, hreply⟩ :=
    @exchange_of_reply fetching (.file (str "./public/a") 5) (by decide +kernel)
      (by simp [fetching, client, connection, Clean]) (headersEnd_crlf (by decide +kernel))
      (by simp [fetching]) ⟨4, by decide +kernel, rfl, rfl, rfl, by decide, by decide⟩
  have hhandled : Handled [] [e] e.after.logged := ⟨hruns, by rw [hbefore]; rfl, rfl⟩
  have hlog := (log_matches_iff hhandled).2 fun x hx => by
    obtain rfl := List.mem_singleton.1 hx
    rw [← replyTo_emptyFile, hreply]
    simp
  rw [List.nil_append, List.flatMap_singleton] at hlog
  exact ⟨e, hbefore, hruns, hlog⟩

def fetchingEmpty : World :=
  client (oneFile (str "./public/a") []) (str "GET a HTTP/1.0\r\n\r\n") get_a_some get_a_fits

theorem empty_file_logged : ∃ e : Exchange, e.before = fetchingEmpty ∧
    Handled [] [e] e.after.logged ∧ e.after.logged ≠ [] ++ [e].flatMap Exchange.expected := by
  obtain ⟨e, hruns, hbefore, hreply⟩ :=
    @exchange_of_reply fetchingEmpty (.emptyFile (str "./public/a")) (by decide +kernel)
      (by simp [fetchingEmpty, client, connection, Clean]) (headersEnd_crlf (by decide +kernel))
      (by simp [fetchingEmpty, client, connection]) ⟨by decide +kernel, rfl⟩
  refine ⟨e, hbefore, ⟨hruns, by rw [hbefore]; rfl, rfl⟩, fun hlog => ?_⟩
  obtain ⟨hgrow, hnone⟩ := (logged_of_runs hruns).1 (replyTo_emptyFile.1 ⟨_, hreply⟩)
  rw [List.nil_append, List.flatMap_singleton, hnone] at hlog
  rw [hlog] at hgrow
  exact absurd hgrow (by simp)

end WebServer.LogEntries
