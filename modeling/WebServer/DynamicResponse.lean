import WebServer.Framing

namespace WebServer.DynamicResponse

open Message Process Segel RequestHandle Answers HeaderReading Framing
open RequestQueue (Timeval ThreadsStats)

variable {w w' : World} {arrival dispatch : Timeval} {stats stats' : ThreadsStats} {old : Locals}
  {buf : Bytes} {fuel : Nat} {filename cgiargs : Bytes} {headers : List Bytes} {body : Bytes}

/-- What a program such as `output.c` writes. -/
def cgiOutput (headers : List Bytes) (body : Bytes) : Bytes := render headers ++ crlf ++ body

/-- The program at `filename` is run, and writes `headers` and `body`. -/
structure Writes (os : Os) (filename cgiargs : Bytes) (headers : List Bytes) (body : Bytes) :
    Prop where
  setenv : os.setenvOk = true
  dup2 : os.dup2Ok = true
  execve : os.execve filename cgiargs = some (cgiOutput headers body)

/-- The lines of the server and those of the program are one header. -/
def OneMessage (stats : ThreadsStats) (arrival dispatch : Timeval) (headers : List Bytes)
    (body message : Bytes) : Prop :=
  ∃ lines, parse message = some (lines, body) ∧
    lines.Perm (okLines ++ statsLines stats arrival dispatch ++ headers)

theorem program_parse (hw : Writes w.os filename cgiargs headers body)
    (h : Answered (.program filename cgiargs) stats arrival dispatch w w') :
    ∃ message, w'.sent = w.sent ++ message ∧ parse message =
      some (okLines ++ statsLines (Reply.count stats (.program filename cgiargs)) arrival dispatch,
        cgiOutput headers body) := by
  have hbody : Reply.body w.os w.stdout (.program filename cgiargs) = cgiOutput headers body := by
    simp [Reply.body, programOutput, hw.setenv, hw.dup2, hw.execve]
  refine ⟨_, h.sent, ?_⟩
  rw [Reply.lines, okLines_front.parse, hbody]

theorem cgiOutput_ne (headers : List Bytes) (body : Bytes) : cgiOutput headers body ≠ body := by
  intro h
  have hlen := congrArg List.length h
  simp only [cgiOutput, crlf, List.length_append, List.length_cons, List.length_nil] at hlen
  omega

theorem not_oneMessage {message : Bytes} {lines : List Bytes}
    (h : parse message = some (lines, cgiOutput headers body)) :
    ¬ OneMessage stats arrival dispatch headers body message := by
  rintro ⟨lines', h', -⟩
  have he := Option.some.inj (h.symm.trans h')
  exact cgiOutput_ne headers body (Prod.mk.inj he).2

theorem program_returned (hreply : replyTo buf old w = some (.program filename cgiargs))
    (hw : Writes w.os filename cgiargs headers body)
    (h : requestHandle fuel buf old arrival dispatch stats w = .returned stats' w') :
    ∃ message, w'.sent = w.sent ++ message ∧ parse message =
      some (okLines ++ statsLines stats' arrival dispatch, cgiOutput headers body) := by
  rcases requestHandle_returned h with ⟨hnone, -⟩ | ⟨reply, hreply', rfl, ha⟩
  · rw [hreply] at hnone
    cases hnone
  · obtain rfl := Option.some.inj (hreply.symm.trans hreply')
    exact program_parse hw ha

/-- Every response to a dynamic GET is cut behind the lines of `append_stats`: the
lines of the program are the beginning of its body. -/
theorem dynamic_response_cut (hreply : replyTo buf old w = some (.program filename cgiargs))
    (hw : Writes w.os filename cgiargs headers body)
    (h : requestHandle fuel buf old arrival dispatch stats w = .returned stats' w') :
    ∃ message, w'.sent = w.sent ++ message ∧
      parse message =
        some (okLines ++ statsLines stats' arrival dispatch, cgiOutput headers body) ∧
      ¬ OneMessage stats' arrival dispatch headers body message := by
  obtain ⟨message, hsent, hparse⟩ := program_returned hreply hw h
  exact ⟨message, hsent, hparse, not_oneMessage hparse⟩

def spinHeaders : List Bytes := [str "Content-length: 35", str "Content-type: text/html"]

def spinBody : Bytes := str "<p>Welcome to the CGI program</p>\r\n"

def spinning : World :=
  client { Os.bare with
      stat := fun _ => some ⟨true, true, true, 99⟩
      execve := fun _ _ => some (cgiOutput spinHeaders spinBody) }
    (str "GET output.cgi?1 HTTP/1.0\r\n\r\n") (by decide) (by decide)

theorem spinning_reply :
    replyTo [] unset spinning = some (.program (str "./public/output.cgi") (str "1")) := by
  decide +kernel

theorem spinning_writes :
    Writes spinning.os (str "./public/output.cgi") (str "1") spinHeaders spinBody :=
  ⟨rfl, rfl, rfl⟩

theorem spinning_returns : ∃ fuel stats' w',
    requestHandle fuel [] unset ⟨1, 5⟩ ⟨0, 7⟩ ⟨3, 0, 0, 0, 0⟩ spinning = .returned stats' w' := by
  apply requestHandle_returns
  · simp [spinning, client, connection, Clean]
  · exact headersEnd_crlf (by decide +kernel)
  · simp [spinning, client, connection]
  · intro reply hreply
    rw [spinning_reply] at hreply
    cases hreply
    exact ⟨by decide, rfl⟩

theorem dynamic_response_cut_spinning : ∃ fuel stats' w' message,
    requestHandle fuel [] unset ⟨1, 5⟩ ⟨0, 7⟩ ⟨3, 0, 0, 0, 0⟩ spinning = .returned stats' w' ∧
      w'.sent = message ∧ ∃ lines, parse message = some (lines, cgiOutput spinHeaders spinBody) := by
  obtain ⟨fuel, stats', w', h⟩ := spinning_returns
  obtain ⟨message, hsent, hparse, -⟩ := dynamic_response_cut spinning_reply spinning_writes h
  exact ⟨fuel, stats', w', message, h, hsent, _, hparse⟩

theorem dynamic_response_broken : ∃ fuel stats' w',
    requestHandle fuel [] unset ⟨1, 5⟩ ⟨0, 7⟩ ⟨3, 0, 0, 0, 0⟩ spinning = .returned stats' w' ∧
      ¬ OneMessage stats' ⟨1, 5⟩ ⟨0, 7⟩ spinHeaders spinBody w'.sent := by
  obtain ⟨fuel, stats', w', h⟩ := spinning_returns
  obtain ⟨message, hsent, hparse⟩ := program_returned spinning_reply spinning_writes h
  refine ⟨fuel, stats', w', h, ?_⟩
  rw [hsent]
  exact not_oneMessage hparse

end WebServer.DynamicResponse
