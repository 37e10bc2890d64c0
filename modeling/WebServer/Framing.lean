import WebServer.HeaderReading

namespace WebServer.Framing

open Message Process Segel RequestHandle Answers HeaderReading
open RequestQueue (Timeval ThreadsStats)
open ServerLog (int32)

variable {w w' : World} {arrival dispatch : Timeval} {stats stats' : ThreadsStats} {old : Locals}
  {buf : Bytes} {fuel : Nat} {os : Os}

/-- The first line that the client sends, if there is one. -/
def requestLine (buf : Bytes) (w : World) : Option Bytes :=
  match RioReadlineb rioReadinitb buf MAXLINE w with
  | .returned (n, line, _) _ => if 0 < n then some line else none
  | .exited _ | .unfinished => none

def replyTo (buf : Bytes) (old : Locals) (w : World) : Option Reply :=
  (requestLine buf w).map fun line => answer w.os (sscanf line old)

theorem replyTo_eq_some {reply : Reply} : replyTo buf old w = some reply ↔
    ∃ n line rio w₁, RioReadlineb rioReadinitb buf MAXLINE w = .returned (n, line, rio) w₁ ∧ 0 < n ∧
      answer w.os (sscanf line old) = reply := by
  rw [replyTo, requestLine]
  rcases RioReadlineb rioReadinitb buf MAXLINE w with ⟨⟨n, line, rio⟩, w₁⟩ | w₁ | _
  · by_cases hn : 0 < n <;> simp [hn]
  · simp
  · simp

theorem requestHandle_returned
    (h : requestHandle fuel buf old arrival dispatch stats w = .returned stats' w') :
    (replyTo buf old w = none ∧ stats' = stats ∧ w'.sent = w.sent ∧ w'.logged = w.logged) ∨
      ∃ reply, replyTo buf old w = some reply ∧ stats' = reply.count stats ∧
        Answered reply stats arrival dispatch w w' := by
  obtain ⟨⟨n, line, rio⟩, w₁, hr, hrest⟩ := bind_returned.1 h
  by_cases hn : n ≤ 0
  · left
    obtain ⟨input, rfl⟩ := RioReadlineb_input hr
    dsimp only at hrest
    rw [if_pos hn] at hrest
    cases hrest
    refine ⟨?_, rfl, rfl, rfl⟩
    simp [replyTo, requestLine, hr, hn]
  · right
    have hhdrs : isGet (sscanf line old) = true →
        ∃ rio' w₂, requestReadhdrs fuel old.hdrs rio w₁ = .returned rio' w₂ := by
      intro hget
      rw [isGet] at hget
      dsimp only at hrest
      rw [if_neg hn, if_pos hget] at hrest
      obtain ⟨rio', w₂, hr', -⟩ := bind_returned.1 hrest
      exact ⟨rio', w₂, hr'⟩
    have ha := (requestHandle_answered hr (by omega) hhdrs).returned h
    exact ⟨_, replyTo_eq_some.2 ⟨n, line, rio, w₁, hr, by omega, rfl⟩, ha⟩

theorem requestHandle_returns (hc : Clean w.input) (he : HeadersEnd old (received w.input))
    (hw : .failed ∉ w.writes) (hworks : ∀ reply, replyTo buf old w = some reply → reply.Works w.os) :
    ∃ fuel stats' w', requestHandle fuel buf old arrival dispatch stats w = .returned stats' w' := by
  by_cases hs : received w.input = []
  · have hr := @RioReadlineb_eof rioReadinitb w buf hc hs
    refine ⟨0, stats, { w with input := [] }, ?_⟩
    simp [requestHandle, hr]
  · obtain ⟨n, rio₁, input₁, hr, -, -, hn⟩ := request_line buf hc hs
    have hhdrs : ∃ fuel, isGet (sscanf (cstr (cutLine (MAXLINE - 1) (received w.input)).1) old) = true →
        ∃ rio' w₂, requestReadhdrs fuel old.hdrs rio₁ { w with input := input₁ } =
          .returned rio' w₂ := by
      by_cases hget : isGet (sscanf (cstr (cutLine (MAXLINE - 1) (received w.input)).1) old) = true
      · obtain ⟨fuel, rio', w₂, hr'⟩ := (headersReturn_iff hc).2 he _ _ _ _ hr hn hget
        exact ⟨fuel, fun _ => ⟨rio', w₂, hr'⟩⟩
      · exact ⟨0, fun h => absurd h hget⟩
    obtain ⟨fuel, hhdrs⟩ := hhdrs
    have hok := hworks _ (replyTo_eq_some.2 ⟨n, _, rio₁, _, hr, hn, rfl⟩)
    obtain ⟨stats', w', h, -⟩ := (requestHandle_answered hr hn hhdrs).returns
      fun _ hd => hw (hd.2 hok)
    exact ⟨fuel, stats', w', h⟩

def Apart (p l : Bytes) : Prop := ¬ p <+: l ∧ ¬ l <+: p

instance (p l : Bytes) : Decidable (Apart p l) := by unfold Apart; infer_instance

theorem Apart.append {p l : Bytes} (h : Apart p l) (t : Bytes) : Apart p (l ++ t) := by
  constructor
  · intro hp
    rcases List.prefix_or_prefix_of_prefix hp (List.prefix_append l t) with h' | h'
    · exact h.1 h'
    · exact h.2 h'
  · intro hp
    exact h.2 ((List.prefix_append l t).trans hp)

def Line (l : Bytes) : Prop := l ≠ [] ∧ Plain l

instance (l : Bytes) : Decidable (Line l) := by unfold Line; infer_instance

theorem Line.append {l t : Bytes} (hl : Line l) (ht : Plain t) : Line (l ++ t) :=
  ⟨by simp [hl.1], plain_append.2 ⟨hl.2, ht⟩⟩

def contentLength : Bytes := str "Content-Length: "

def statName : Bytes := str "Stat-"

theorem statLine {name value : Bytes} (hn : statName <+: name ∧ Plain name) (hv : Plain value) :
    statName <+: name ++ value ∧ Plain (name ++ value) :=
  ⟨hn.1.trans (List.prefix_append _ _), plain_append.2 ⟨hn.2, hv⟩⟩

theorem statsLines_stat (stats : ThreadsStats) (arrival dispatch : Timeval) :
    ∀ l ∈ statsLines stats arrival dispatch, statName <+: l ∧ Plain l := by
  have hdot : Plain (str ".") := by decide
  simp only [statsLines, List.forall_mem_cons, List.not_mem_nil, false_imp_iff, implies_true,
    and_true]
  refine ⟨?_, ?_, ?_, ?_, ?_, ?_, ?_⟩
  · exact statLine (statLine (statLine (by decide) (signed_plain _)) hdot) (padded_plain _ _)
  · exact statLine (statLine (statLine (by decide) (signed_plain _)) hdot) (padded_plain _ _)
  · exact statLine (by decide) (signed_plain _)
  · exact statLine (by decide) (signed_plain _)
  · exact statLine (by decide) (signed_plain _)
  · exact statLine (by decide) (signed_plain _)
  · exact statLine (by decide) (signed_plain _)

structure Front (lines : List Bytes) : Prop where
  line : ∀ l ∈ lines, Line l
  stat : lines.filter (statName <+: ·) = []

theorem okLines_front : Front okLines := ⟨by decide, by decide⟩

theorem Front.append {a b : List Bytes} (ha : Front a) (hb : Front b) : Front (a ++ b) where
  line l hl := (List.mem_append.1 hl).elim (ha.line l) (hb.line l)
  stat := by rw [List.filter_append, ha.stat, hb.stat]; rfl

theorem front_one {name value : Bytes} (hn : Line name) (ha : Apart statName name)
    (hv : Plain value) : Front [name ++ value] where
  line l hl := by
    obtain rfl := List.mem_singleton.1 hl
    exact hn.append hv
  stat := by
    rw [List.filter_cons_of_neg, List.filter_nil]
    simpa using (ha.append value).1

theorem errorLines_front {errnum shortmsg : Bytes} (he : Plain errnum) (hs : Plain shortmsg)
    (page : Bytes) : Front (errorLines errnum shortmsg page) := by
  have hstatus : Plain (errnum ++ str " " ++ shortmsg) :=
    plain_append.2 ⟨plain_append.2 ⟨he, by decide⟩, hs⟩
  have h₁ : Front [str "HTTP/1.0 " ++ (errnum ++ str " " ++ shortmsg)] :=
    front_one (by decide) (by decide) hstatus
  have h₂ : Front [str "Content-Type: text/html"] := ⟨by decide, by decide⟩
  have h₃ : Front [str "Content-Length: " ++ decimal page.length] :=
    front_one (by decide) (by decide) (decimal_plain _)
  simpa [errorLines] using h₁.append (h₂.append h₃)

theorem requestGetFiletype_plain (filename : Bytes) : Plain (requestGetFiletype filename) := by
  rw [requestGetFiletype]
  split
  · decide
  split
  · decide
  split <;> decide

theorem contentLines_front (length : Int) {filetype : Bytes} (ht : Plain filetype) :
    Front (contentLines length filetype) := by
  have h₁ : Front [str "Content-Length: " ++ signed length] :=
    front_one (by decide) (by decide) (signed_plain _)
  have h₂ : Front [str "Content-Type: " ++ filetype] := front_one (by decide) (by decide) ht
  exact okLines_front.append (h₁.append h₂)

theorem answer_front (os : Os) (found : Locals) : Front ((answer os found).lines os) := by
  have herror {errnum shortmsg : Bytes} (he : Plain errnum) (hs : Plain shortmsg)
      (cause longmsg : Bytes) : Front (Reply.lines os (.error cause errnum shortmsg longmsg)) :=
    errorLines_front he hs _
  rw [answer, answerGet]
  split
  · split
    · exact herror (by decide) (by decide) _ _
    · split
      · split
        · exact herror (by decide) (by decide) _ _
        · split
          · exact errorLines_front (by decide) (by decide) _
          · exact contentLines_front _ (requestGetFiletype_plain _)
      · split
        · exact herror (by decide) (by decide) _ _
        · exact okLines_front
  · split
    · exact contentLines_front _ (by decide)
    · exact herror (by decide) (by decide) _ _

theorem signed_natCast (n : Nat) : signed n = decimal n := by
  simp [signed]

theorem errorLines_length {errnum shortmsg : Bytes} (page : Bytes) :
    (errorLines errnum shortmsg page).filter (contentLength <+: ·) =
      [contentLength ++ decimal page.length] := by
  have h₁ : ¬ contentLength <+: str "HTTP/1.0 " ++ errnum ++ str " " ++ shortmsg := by
    have h : Apart contentLength (str "HTTP/1.0 ") := by decide
    exact (((h.append _).append _).append _).1
  have h₂ : ¬ contentLength <+: str "Content-Type: text/html" := by decide
  have h₃ : contentLength <+: str "Content-Length: " ++ decimal page.length :=
    List.prefix_append contentLength _
  rw [errorLines, List.filter_cons_of_neg (by simpa using h₁),
    List.filter_cons_of_neg (by simpa using h₂), List.filter_cons_of_pos (by simpa using h₃),
    List.filter_nil, contentLength]

theorem contentLines_length (n : Nat) (filetype : Bytes) :
    (contentLines n filetype).filter (contentLength <+: ·) = [contentLength ++ decimal n] := by
  have h₁ : okLines.filter (contentLength <+: ·) = [] := by decide
  have h₂ : contentLength <+: str "Content-Length: " ++ signed n :=
    List.prefix_append contentLength _
  have h₃ : ¬ contentLength <+: str "Content-Type: " ++ filetype := by
    have h : Apart contentLength (str "Content-Type: ") := by decide
    exact (h.append _).1
  rw [contentLines, List.filter_append, h₁, List.nil_append,
    List.filter_cons_of_pos (by simpa using h₂), List.filter_cons_of_neg (by simpa using h₃),
    List.filter_nil, signed_natCast, contentLength]

theorem statsLines_length (stats : ThreadsStats) (arrival dispatch : Timeval) :
    (statsLines stats arrival dispatch).filter (contentLength <+: ·) = [] := by
  rw [List.filter_eq_nil_iff]
  intro l hl hc
  obtain ⟨t, rfl⟩ := (statsLines_stat stats arrival dispatch l hl).1
  have h : Apart contentLength statName := by decide
  exact (h.append t).1 (by simpa using hc)

theorem Front.response_line {lines : List Bytes} (h : Front lines) (stats : ThreadsStats)
    (arrival dispatch : Timeval) : ∀ l ∈ lines ++ statsLines stats arrival dispatch, Line l := by
  intro l hl
  rcases List.mem_append.1 hl with hl | hl
  · exact h.line l hl
  · obtain ⟨⟨t, rfl⟩, hp⟩ := statsLines_stat stats arrival dispatch l hl
    exact ⟨by simp [statName, str], hp⟩

theorem Front.parse {lines : List Bytes} (h : Front lines) (stats : ThreadsStats)
    (arrival dispatch : Timeval) (body : Bytes) :
    Message.parse (response lines stats arrival dispatch body) =
      some (lines ++ statsLines stats arrival dispatch, body) :=
  parse_render (by simp [statsLines]) (h.response_line stats arrival dispatch) body

theorem Front.filter_stat {lines : List Bytes} (h : Front lines) (stats : ThreadsStats)
    (arrival dispatch : Timeval) :
    (lines ++ statsLines stats arrival dispatch).filter (statName <+: ·) =
      statsLines stats arrival dispatch := by
  rw [List.filter_append, h.stat, List.nil_append, List.filter_eq_self]
  intro l hl
  simpa using (statsLines_stat stats arrival dispatch l hl).1

def status : Reply → Bytes
  | .error _ errnum shortmsg _ => str "HTTP/1.0 " ++ errnum ++ str " " ++ shortmsg
  | .emptyFile _ => str "HTTP/1.0 " ++ str "403" ++ str " " ++ str "Forbidden"
  | .file _ _ | .program _ _ | .log => str "HTTP/1.0 200 OK"

theorem lines_status (os : Os) (reply : Reply) : (reply.lines os).head? = some (status reply) := by
  cases reply <;> rfl

theorem log_body (stdout : Bytes) (h : os.log.length < 2 ^ 31) : Reply.body os stdout .log = os.log := by
  have hn : ((os.log.length : Int) % 2 ^ 64).toNat = os.log.length := by omega
  rw [Reply.body, int32_small h, hn, List.take_left]

/-- The bytes that a reply of known length carries: for a file the first `size` bytes,
which is all of it unless it has changed since `stat`. Where it is shorter now, the rest
of the last page follows. -/
def Carries (os : Os) (body : Bytes) : Reply → Prop
  | .error cause errnum shortmsg longmsg => body = errorPage cause errnum shortmsg longmsg
  | .emptyFile filename => body =
      errorPage filename (str "403") (str "Forbidden") (str "OS-HW3 Server cannot map empty file")
  | .file filename size => ∃ fd, os.openFd filename = some fd ∧ body.length = size ∧
      body <+: os.mapped fd ∧ (size ≤ (os.content fd).length → body <+: os.content fd) ∧
      ((os.content fd).length = size → body = os.content fd)
  | .program _ _ => False
  | .log => body = os.log

/-- One response to `reply`: header lines, an empty line, which is the first one, and
a body of the announced length. -/
structure Framed (reply : Reply) (os : Os) (stats : ThreadsStats) (arrival dispatch : Timeval)
    (message : Bytes) (lines : List Bytes) (body : Bytes) : Prop where
  bytes : message = render lines ++ crlf ++ body
  line : ∀ l ∈ lines, Line l
  first : Message.parse message = some (lines, body)
  status : lines.head? = some (status reply)
  length : lines.filter (contentLength <+: ·) = [contentLength ++ decimal body.length]
  stats : lines.filter (statName <+: ·) = statsLines stats arrival dispatch
  carries : Carries os body reply

theorem Answered.framed {reply : Reply} (hf : Front (reply.lines w.os))
    (hp : ∀ filename cgiargs, reply ≠ .program filename cgiargs)
    (hlog : reply = .log → w.os.log.length < 2 ^ 31)
    (h : Answered reply stats arrival dispatch w w') :
    Framed reply w.os (reply.count stats) arrival dispatch
      (response (reply.lines w.os) (reply.count stats) arrival dispatch (reply.body w.os w.stdout))
      (reply.lines w.os ++ statsLines (reply.count stats) arrival dispatch)
      (reply.body w.os w.stdout) where
  bytes := rfl
  line := hf.response_line _ _ _
  first := hf.parse _ _ _ _
  status := by rw [List.head?_append, lines_status]; rfl
  length := by
    rw [List.filter_append, statsLines_length, List.append_nil]
    cases reply with
    | error cause errnum shortmsg longmsg => exact errorLines_length _
    | emptyFile filename => exact errorLines_length _
    | file filename size =>
        have hl := contentLines_length (Reply.body w.os w.stdout (.file filename size)).length
          (requestGetFiletype filename)
        rw [(h.whole rfl).2] at hl
        exact hl
    | program filename cgiargs => exact absurd rfl (hp _ _)
    | log =>
        rw [log_body w.stdout (hlog rfl), Reply.lines, int32_small (hlog rfl)]
        exact contentLines_length _ _
  stats := hf.filter_stat _ _ _
  carries := by
    cases reply with
    | error cause errnum shortmsg longmsg => rfl
    | emptyFile filename => rfl
    | file filename size =>
        obtain ⟨hopen, hlen⟩ := h.whole rfl
        obtain ⟨fd, hfd⟩ := Option.ne_none_iff_exists'.1 hopen
        have hmapped : Reply.body w.os w.stdout (.file filename size) <+: w.os.mapped fd := by
          rw [Reply.body, hfd]
          exact List.take_prefix _ _
        have hpre (hle : size ≤ (w.os.content fd).length) :
            Reply.body w.os w.stdout (.file filename size) <+: w.os.content fd :=
          List.prefix_of_prefix_length_le hmapped (List.prefix_append _ _) (by omega)
        exact ⟨fd, hfd, hlen, hmapped, hpre, fun hall =>
          (hpre (by omega)).eq_of_length (by omega)⟩
    | program filename cgiargs => exact absurd rfl (hp _ _)
    | log => exact log_body w.stdout (hlog rfl)

/-- Every request that is not answered by a program gets one framed response. -/
theorem response_framing {reply : Reply} (hreply : replyTo buf old w = some reply)
    (hp : ∀ filename cgiargs, reply ≠ .program filename cgiargs)
    (hlog : reply = .log → w.os.log.length < 2 ^ 31) :
    (Clean w.input → HeadersEnd old (received w.input) → .failed ∉ w.writes → reply.Works w.os →
        ∃ fuel stats' w', requestHandle fuel buf old arrival dispatch stats w = .returned stats' w') ∧
      ∀ fuel stats' w', requestHandle fuel buf old arrival dispatch stats w = .returned stats' w' →
        ∃ message lines body, w'.sent = w.sent ++ message ∧
          Framed reply w.os stats' arrival dispatch message lines body := by
  constructor
  · intro hc he hw hworks
    apply requestHandle_returns hc he hw
    intro reply' hreply'
    obtain rfl := Option.some.inj (hreply.symm.trans hreply')
    exact hworks
  · intro fuel stats' w' h
    rcases requestHandle_returned h with ⟨hnone, -⟩ | ⟨reply', hreply', rfl, ha⟩
    · rw [hreply] at hnone
      cases hnone
    · obtain rfl := Option.some.inj (hreply.symm.trans hreply')
      obtain ⟨n, line, rio, w₁, -, -, rfl⟩ := replyTo_eq_some.1 hreply
      exact ⟨_, _, _, ha.sent, Answered.framed (answer_front _ _) hp hlog ha⟩

def oneFile (filename content : Bytes) : Os :=
  { Os.bare with
    stat := fun f => if f = filename then some ⟨true, true, true, content.length⟩ else none
    openFd := fun f => if f = filename then some 4 else none
    content := fun _ => content }

theorem get_a_some : str "GET a HTTP/1.0\r\n\r\n" ≠ [] := by decide

theorem get_a_fits : (str "GET a HTTP/1.0\r\n\r\n").length ≤ 8192 := by decide

def fetching : World :=
  { client (oneFile (str "./public/a") (str "hello")) (str "GET a HTTP/1.0\r\n\r\n") get_a_some
      get_a_fits with writes := [.short 9, .eintr, .short 0] }

theorem response_framing_fetching : ∃ fuel stats' w' message lines,
    requestHandle fuel [] unset ⟨1, 5⟩ ⟨0, 7⟩ ⟨3, 0, 0, 0, 0⟩ fetching = .returned stats' w' ∧
      w'.sent = message ∧ Framed (.file (str "./public/a") 5) fetching.os stats' ⟨1, 5⟩ ⟨0, 7⟩ message
        lines (str "hello") := by
  have hreply : replyTo [] unset fetching = some (.file (str "./public/a") 5) := by decide +kernel
  obtain ⟨hreturns, hframed⟩ := @response_framing fetching ⟨1, 5⟩ ⟨0, 7⟩ ⟨3, 0, 0, 0, 0⟩ unset [] _
    hreply (by simp) (by simp)
  obtain ⟨fuel, stats', w', h⟩ := hreturns (by simp [fetching, client, connection, Clean])
    (headersEnd_crlf (by decide +kernel)) (by simp [fetching])
    ⟨4, by decide +kernel, rfl, rfl, rfl, by decide, by decide⟩
  obtain ⟨message, lines, body, hsent, hf⟩ := hframed fuel stats' w' h
  obtain ⟨fd, -, -, -, -, hbody⟩ := hf.carries
  obtain rfl := hbody rfl
  exact ⟨fuel, stats', w', message, lines, h, hsent, hf⟩

end WebServer.Framing
