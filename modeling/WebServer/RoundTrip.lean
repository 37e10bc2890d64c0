import WebServer.ClientPrint
import WebServer.ErrorPages
import WebServer.StatsText

namespace WebServer.RoundTrip

open Message Process Segel RequestHandle Sending Answers HeaderReading Framing
open ClientRequest ClientPrint ErrorPages StatsText Numerals
open RequestQueue (Timeval ThreadsStats)

variable {lines : List Bytes} {l s body filename method hostname : Bytes} {n : Nat} {reply : Reply}
  {os : Os} {arrival dispatch : Timeval} {stats : ThreadsStats} {w w' : World} {found : Locals}

structure Short (l : Bytes) : Prop where
  line : Line l
  nul : 0 ∉ l
  length : l.length + 1 < MAXLINE - 1

theorem fragments_line (hl : Plain l) (hlen : l.length + 1 < MAXLINE - 1) (s : Bytes) :
    fragments (l ++ crlf ++ s) = (l ++ crlf) :: fragments s := by
  have hno : 10 ∉ l ++ [13] := by
    rw [List.mem_append, not_or]
    exact ⟨hl.2, by decide⟩
  have heq : l ++ crlf ++ s = (l ++ [13]) ++ 10 :: s := by simp [crlf]
  have hcut : cutLine (MAXLINE - 1) (l ++ crlf ++ s) = (l ++ crlf, s) := by
    rw [heq, cutLine_line hno (by simpa using hlen)]
    simp [crlf]
  rw [fragments_cons (by simp [crlf]), hcut]

theorem fragments_render (h : ∀ l ∈ lines, Short l) (s : Bytes) :
    fragments (render lines ++ s) = lines.map (· ++ crlf) ++ fragments s := by
  induction lines with
  | nil => rfl
  | cons l lines ih =>
      obtain ⟨hl, hlines⟩ := List.forall_mem_cons.1 h
      have hrender : render (l :: lines) ++ s = l ++ crlf ++ (render lines ++ s) := by simp [render]
      rw [hrender, fragments_line hl.line.2 hl.length, ih hlines]
      rfl

theorem flatten_fragments (s : Bytes) : (fragments s).flatten = s := by
  induction hn : s.length using Nat.strong_induction_on generalizing s with
  | _ n ih =>
      by_cases hs : s = []
      · rw [hs, fragments_nil]
        rfl
      · rw [fragments_cons hs, List.flatten_cons, ih _ (hn ▸ cutLine_rest_lt hs) _ rfl,
          cutLine_append]

def shownLine (n : Nat) (l : Bytes) : Bytes :=
  str "Header: " ++ l ++ crlf ++
    if contentLength <+: l then str "Length = " ++ decimal n ++ str "\n" else []

def shownBody (body : Bytes) : Bytes := (fragments body).flatMap cstr

theorem shownBody_text (h : 0 ∉ body) : shownBody body = body := by
  have hcstr : ∀ f ∈ fragments body, cstr f = f := by
    intro f hf
    apply cstr_eq
    intro h0
    apply h
    rw [← flatten_fragments body]
    exact List.mem_flatten_of_mem hf h0
  rw [shownBody, List.flatMap_congr hcstr, List.flatMap_id', flatten_fragments]

/-- Where `sscanf` takes the line for a length, it is `n`. -/
structure Legible (n : Nat) (l : Bytes) : Prop extends Short l where
  announces : str "Content-Length:" <+: l → l = contentLength ++ decimal n ∧ n < 2 ^ 31

theorem sscanfLength_line (hn : n < 2 ^ 31) :
    sscanfLength (contentLength ++ decimal n ++ crlf) = some (n : Int) := by
  have hname : contentLength = str "Content-Length:" ++ [32] := by decide
  have hspace : ∀ b ∈ ([32] : Bytes), isspace b = true := List.forall_mem_singleton.2 rfl
  have hcr : ∀ b ∈ crlf.head?, isDigit b = false := by
    rintro b ⟨⟩
    rfl
  have hscan := @scanInt_signed n crlf (by omega) (by omega) [32] hspace hcr
  have hlen : (str "Content-Length:").length = 15 := by decide +kernel
  have hdrop : (str "Content-Length:" ++ ([32] ++ decimal n ++ crlf)).drop 15 =
      [32] ++ decimal n ++ crlf := List.drop_left' hlen
  rw [signed_natCast] at hscan
  rw [hname, List.append_assoc, List.append_assoc, ← List.append_assoc [32], sscanfLength,
    if_pos (List.prefix_append _ _), hdrop, hscan]

theorem prefix_append_crlf {p : Bytes} (hp : Plain p) : p <+: l ++ crlf ↔ p <+: l := by
  refine ⟨fun h => ?_, fun h => h.trans (List.prefix_append _ _)⟩
  rcases List.prefix_or_prefix_of_prefix h (List.prefix_append l crlf) with h' | ⟨t, rfl⟩
  · exact h'
  · have ht : t <+: crlf := (List.prefix_append_right_inj l).1 h
    cases t with
    | nil => simp
    | cons b t =>
        obtain ⟨rfl, -⟩ := List.cons_prefix_cons.1 ht
        exact absurd (by simp) hp.1

theorem shown_line (hl : Legible n l) : shown (cstr (l ++ crlf)) = shownLine n l := by
  have hnul : 0 ∉ l ++ crlf := by
    rw [List.mem_append, not_or]
    exact ⟨hl.nul, by decide⟩
  rw [cstr_eq hnul, shown, shownLine]
  by_cases hp : str "Content-Length:" <+: l
  · obtain ⟨rfl, hn⟩ := hl.announces hp
    rw [sscanfLength_line hn, if_pos (List.prefix_append _ _)]
    simp [signed_natCast]
  · have hlen : sscanfLength (l ++ crlf) = none := by
      rw [sscanfLength, if_neg ((prefix_append_crlf (by decide)).not.2 hp)]
    have hname : str "Content-Length:" <+: contentLength := by decide
    rw [hlen, if_neg fun h => hp (hname.trans h), List.append_assoc]
    simp

theorem printed_answer (h : ∀ l ∈ lines, Legible n l) (body : Bytes) :
    printed (fragments (render lines ++ crlf ++ body)) =
      lines.flatMap (shownLine n) ++ shownBody body := by
  have hempty : fragments (crlf ++ body) = crlf :: fragments body :=
    fragments_line (l := []) (by decide) (by decide) body
  have hheader : ∀ l ∈ lines.map (· ++ crlf), isHeader l = true := by
    intro l hl
    obtain ⟨l', hl', rfl⟩ := List.mem_map.1 hl
    simpa [isHeader] using (h l' hl').line.1
  have hend : ¬ isHeader crlf = true := by decide
  rw [List.append_assoc, fragments_render fun l hl => (h l hl).toShort, hempty, printed,
    List.takeWhile_append_of_pos hheader, List.takeWhile_cons_of_neg hend, List.append_nil,
    List.dropWhile_append_of_pos hheader, List.dropWhile_cons_of_neg hend, List.tail_cons,
    List.flatMap_map, shownBody]
  congr 1
  exact List.flatMap_congr fun l hl => shown_line (h l hl)

theorem short_append {name value : Bytes} (hn : Line name) (hnul : 0 ∉ name)
    (hname : name.length ≤ 40) (hv : Plain value) (hvnul : 0 ∉ value) (hvalue : value.length ≤ 60) :
    Short (name ++ value) where
  line := hn.append hv
  nul := by
    rw [List.mem_append, not_or]
    exact ⟨hnul, hvnul⟩
  length := by
    rw [List.length_append, MAXLINE]
    omega

theorem time_short {name : Bytes} {sec usec : Int} (hn : Line name) (hnul : 0 ∉ name)
    (hname : name.length ≤ 40) (hs : Long sec) (hu : Long usec) :
    Short (name ++ signed sec ++ str "." ++ padded 6 usec) := by
  have hsec := hs.signed_length
  have husec := hu.padded_length
  have hdot : (str ".").length = 1 := by decide
  have hplain : Plain (signed sec ++ str "." ++ padded 6 usec) :=
    plain_append.2 ⟨plain_append.2 ⟨signed_plain _, by decide⟩, padded_plain _ _⟩
  have hnuls : 0 ∉ signed sec ++ str "." ++ padded 6 usec := by
    simp only [List.mem_append, not_or]
    exact ⟨⟨signed_nul _, by decide⟩, padded_nul _ _⟩
  have h := short_append hn hnul hname hplain hnuls (by simp only [List.length_append]; omega)
  simpa only [List.append_assoc] using h

theorem number_short {name : Bytes} {n : Int} (hn : Line name) (hnul : 0 ∉ name)
    (hname : name.length ≤ 40) (h : Long n) : Short (name ++ signed n) :=
  short_append hn hnul hname (signed_plain _) (signed_nul _) (h.signed_length.trans (by decide))

theorem Short.legible {name : Bytes} (h : Short l) (hname : name <+: l)
    (ha : Apart (str "Content-Length:") name) : Legible n l where
  toShort := h
  announces hp := by
    obtain ⟨t, rfl⟩ := hname
    exact absurd hp (ha.append t).1

theorem statsLines_legible (h : Numbers stats arrival dispatch) :
    ∀ l ∈ statsLines stats arrival dispatch, Legible n l := by
  have hshort : ∀ l ∈ statsLines stats arrival dispatch, Short l := by
    simp only [statsLines, List.forall_mem_cons, List.not_mem_nil, false_imp_iff, implies_true,
      and_true]
    refine ⟨?_, ?_, ?_, ?_, ?_, ?_, ?_⟩
    · exact time_short (by decide) (by decide) (by decide) h.arrival.1 h.arrival.2
    · exact time_short (by decide) (by decide) (by decide) h.dispatch.1 h.dispatch.2
    · exact number_short (by decide) (by decide) (by decide) h.id
    · exact number_short (by decide) (by decide) (by decide) h.total
    · exact number_short (by decide) (by decide) (by decide) h.static
    · exact number_short (by decide) (by decide) (by decide) h.dynamic
    · exact number_short (by decide) (by decide) (by decide) h.post
  intro l hl
  exact (hshort l hl).legible (statsLines_stat stats arrival dispatch l hl).1 (by decide)

theorem length_legible (hn : n < 2 ^ 31) : Legible n (contentLength ++ decimal n) where
  toShort := by
    have hlen : (decimal n).length ≤ 10 := decimal_length (by omega) (by decide)
    exact short_append (by decide) (by decide) (by decide) (decimal_plain _) (decimal_nul _)
      (by omega)
  announces _ := ⟨rfl, hn⟩

theorem okLines_legible : ∀ l ∈ okLines, Legible n l := by
  simp only [okLines, List.forall_mem_cons, List.not_mem_nil, false_imp_iff, implies_true, and_true]
  have hstatus := List.prefix_append (str "HTTP/1.0 ") (str "200 OK")
  have hserver := List.prefix_append (str "Server: ") (str "OS-HW3 Web Server")
  exact ⟨Short.legible ⟨by decide, by decide, by decide⟩ hstatus (by decide),
    Short.legible ⟨by decide, by decide, by decide⟩ hserver (by decide)⟩

theorem contentLines_legible (hn : n < 2 ^ 31) {filetype : Bytes} (ht : Plain filetype)
    (hnul : 0 ∉ filetype) (hlen : filetype.length ≤ 60) :
    ∀ l ∈ contentLines n filetype, Legible n l := by
  rw [contentLines, signed_natCast, List.forall_mem_append]
  refine ⟨okLines_legible, ?_⟩
  simp only [List.forall_mem_cons, List.not_mem_nil, false_imp_iff, implies_true, and_true]
  exact ⟨length_legible hn, (short_append (by decide) (by decide) (by decide) ht hnul hlen).legible
    (List.prefix_append (str "Content-Type: ") _) (by decide)⟩

theorem errorLines_legible (site : Site) {page : Bytes} (hn : page.length < 2 ^ 31) :
    ∀ l ∈ errorLines site.errnum site.shortmsg page, Legible page.length l := by
  simp only [errorLines, List.forall_mem_cons, List.not_mem_nil, false_imp_iff, implies_true,
    and_true]
  refine ⟨?_, ?_, length_legible hn⟩
  · have hshort : Short (str "HTTP/1.0 " ++ site.errnum ++ str " " ++ site.shortmsg) := by
      constructor <;> cases site <;> decide
    apply hshort.legible _ (by decide : Apart _ (str "HTTP/1.0 "))
    simp only [List.append_assoc]
    exact List.prefix_append _ _
  · exact Short.legible ⟨by decide, by decide, by decide⟩
      (List.prefix_append (str "Content-Type: ") _) (by decide)

theorem requestGetFiletype_short (filename : Bytes) :
    0 ∉ requestGetFiletype filename ∧ (requestGetFiletype filename).length ≤ 60 := by
  rw [requestGetFiletype]
  split
  · decide
  split
  · decide
  split <;> decide

theorem page_small {site : Site} (hm : found.method.length ≤ MAXLINE)
    (hu : found.uri.length ≤ MAXLINE) : (site.page (site.cause found)).length < 2 ^ 31 := by
  have hpage := page_length site (site.cause found)
  have hname := NameLengths.filename_length_le found.uri found
  rw [MAXLINE] at hm hu
  have hcause : (site.cause found).length ≤ 8210 := by
    cases site with
    | notImplemented => exact hm.trans (by decide)
    | _ => exact hname.trans (by omega)
  omega

theorem site_lines (site : Site) (cause : Bytes) :
    (site.reply cause).lines os = errorLines site.errnum site.shortmsg (site.page cause) := by
  cases site <;> rfl

theorem site_body (site : Site) (cause stdout : Bytes) :
    (site.reply cause).body os stdout = site.page cause := by
  cases site <;> rfl

theorem answer_file {filename : Bytes} {size : Int} (h : answer os found = .file filename size) :
    size < 2 ^ 31 := by
  rw [answer, answerGet] at h
  repeat' split at h
  all_goals cases h
  exact int32_lt _

theorem answered_legible (h : Answered (answer w.os found) stats arrival dispatch w w')
    (hm : found.method.length ≤ MAXLINE) (hu : found.uri.length ≤ MAXLINE)
    (hlog : answer w.os found = .log → w.os.log.length < 2 ^ 31)
    (hnum : Numbers ((answer w.os found).count stats) arrival dispatch) :
    ∀ l ∈ (answer w.os found).lines w.os ++
        statsLines ((answer w.os found).count stats) arrival dispatch,
      Legible ((answer w.os found).body w.os w.stdout).length l := by
  rw [List.forall_mem_append]
  refine ⟨?_, statsLines_legible hnum⟩
  by_cases herror : IsError (answer w.os found)
  · obtain ⟨site, hsite⟩ := answer_site herror
    rw [hsite, site_lines, site_body]
    exact errorLines_legible site (page_small hm hu)
  · cases ha : answer w.os found with
    | error cause errnum shortmsg longmsg => exact absurd trivial (by rwa [ha] at herror)
    | emptyFile filename => exact absurd trivial (by rwa [ha] at herror)
    | file filename size =>
        have hlen := (h.whole ha).2
        have hsmall := answer_file ha
        rw [ha] at hlen
        obtain ⟨hnul, hshort⟩ := requestGetFiletype_short filename
        generalize (Reply.body w.os w.stdout (.file filename size)).length = n at hlen ⊢
        subst hlen
        exact contentLines_legible (by omega) (requestGetFiletype_plain _) hnul hshort
    | program filename cgiargs => exact okLines_legible
    | log =>
        rw [log_body w.stdout (hlog ha), Reply.lines, int32_small (hlog ha)]
        exact contentLines_legible (hlog ha) (by decide) (by decide) (by decide)

/-- The client's request has arrived whole at the server. -/
structure Asked (method filename hostname : Bytes) (w : World) : Prop where
  methodWord : Word method
  filenameWord : Word filename
  hostnameLine : 10 ∉ hostname
  length : (requestText filename method hostname).length < MAXLINE
  clean : Clean w.input
  received : received w.input = requestText filename method hostname

theorem Asked.read (h : Asked method filename hostname w) (buf : Bytes) :
    ∃ n line rio w₁, RioReadlineb rioReadinitb buf MAXLINE w = .returned (n, line, rio) w₁ ∧ 0 < n ∧
      (∀ old, sscanf line old =
        { old with method := method, uri := filename, version := str "HTTP/1.1" }) ∧
      ∀ stale, ∃ fuel rio' w₂, requestReadhdrs fuel stale rio w₁ = .returned rio' w₂ ∧
        stream rio' w₂.input = [] :=
  request_read h.methodWord h.filenameWord h.hostnameLine h.length h.clean
    (h.received.trans (List.append_nil _).symm) buf

/-- The connection of a client to which the server has sent `message`, and nothing fails. -/
structure Told (message : Bytes) (c : World) : Prop where
  clean : Clean c.input
  received : received c.input = message
  writes : .failed ∉ c.writes
  close : c.os.closeOk

theorem RioWriten_whole (buf : Bytes) (hw : .failed ∉ w.writes) :
    RioWriten buf buf.length w = .returned () { w with
      sent := w.sent ++ buf
      writes := (rioWriten w.writes buf).2.2 } := by
  have hok := rioWriten_ok buf hw
  unfold RioWriten
  dsimp only
  rw [List.take_length, if_pos (Nat.le_refl _), List.append_nil, if_pos ⟨hok, Nat.le_refl _⟩,
    rioWriten_all _ _ hok]

theorem clientSend_whole (hw : .failed ∉ w.writes) :
    clientSend (some hostname) filename method w = .returned () { w with
      stdout := w.stdout ++ (str "Request:\n" ++ requestText filename method hostname ++ str "\n")
      sent := w.sent ++ requestText filename method hostname
      writes := (rioWriten w.writes (requestText filename method hostname)).2.2 } := by
  rw [clientSend, bind_apply, Gethostname, pure_apply]
  dsimp only
  rw [bind_apply, printf]
  exact RioWriten_whole (w := { w with
    stdout := w.stdout ++
      (str "Request:\n" ++ requestText filename method hostname ++ str "\n") }) _ hw

def greeting (clientfd : Nat) (request : Bytes) : Bytes :=
  str "Connected to server. clientfd = " ++ decimal clientfd ++ str "\n" ++
    (str "Request:\n" ++ request ++ str "\n")

theorem main_shows {message host port name : Bytes} {connect : Bytes → Int → Option Nat}
    {clientfd : Nat} (h : Told message w) (hconnect : connect host (atoi port) = some clientfd)
    (hmessage : message = render lines ++ crlf ++ body) (hl : ∀ l ∈ lines, Legible body.length l)
    (stale : Bytes) : ∃ w', main ((fragments message).length + 2) stale (some hostname) connect
        [name, host, port, filename, method] w = .returned () w' ∧
      w'.sent = w.sent ++ requestText filename method hostname ∧
      w'.stdout = w.stdout ++ greeting clientfd (requestText filename method hostname) ++
        (lines.flatMap (shownLine body.length) ++ shownBody body) := by
  obtain ⟨w₁, hw₁, hp⟩ := @client_prints
    { w with
      stdout := w.stdout ++ greeting clientfd (requestText filename method hostname)
      sent := w.sent ++ requestText filename method hostname
      writes := (rioWriten w.writes (requestText filename method hostname)).2.2 }
    ((fragments message).length + 2) h.clean stale (by rw [h.received])
  refine ⟨w₁, ?_, hp.sent, ?_⟩
  · have hsend := @clientSend_whole filename method hostname
      { w with stdout := w.stdout ++ (str "Connected to server. clientfd = " ++ decimal clientfd ++
        str "\n") } h.writes
    have hclose : w₁.os.closeOk = true := by rw [hp.os]; exact h.close
    rw [main, hconnect]
    dsimp only
    rw [bind_apply, printf]
    dsimp only
    rw [bind_apply, hsend]
    dsimp only
    rw [List.append_assoc w.stdout]
    rw [greeting] at hw₁
    rw [bind_apply, hw₁]
    dsimp only
    rw [Close, check, if_pos hclose]
  · rw [hp.stdout, h.received, hmessage, printed_answer hl]

def sentAnswer (reply : Reply) (stats : ThreadsStats) (arrival dispatch : Timeval) (w : World) :
    Bytes :=
  response (reply.lines w.os) (reply.count stats) arrival dispatch (reply.body w.os w.stdout)

def shownAnswer (reply : Reply) (stats : ThreadsStats) (arrival dispatch : Timeval) (w : World) :
    Bytes :=
  (reply.lines w.os ++ statsLines (reply.count stats) arrival dispatch).flatMap
    (shownLine (reply.body w.os w.stdout).length) ++ shownBody (reply.body w.os w.stdout)

theorem Asked.fits (h : Asked method filename hostname w) :
    method.length ≤ MAXLINE ∧ filename.length ≤ MAXLINE := by
  have hlen := h.length
  simp only [requestText, List.length_append] at hlen
  omega

def asked : World :=
  connection (oneFile (str "./public/a") (str "hello"))
    [.data (str "GET a HTTP/1.1\nhos") (by decide) (by decide), .eintr,
      .data (str "t: b\n\r\n") (by decide) (by decide)] [.short 9, .eintr, .short 0]

def answered : Bytes := sentAnswer (.file (str "./public/a") 5) ⟨3, 0, 0, 0, 0⟩ ⟨1, 5⟩ ⟨0, 7⟩ asked

theorem answered_some : answered ≠ [] := by decide +kernel

theorem answered_fits : answered.length ≤ 8192 := by decide +kernel

def connectHost (host : Bytes) (port : Int) : Option Nat :=
  if host = str "b" ∧ port = 8080 then some 3 else none

end WebServer.RoundTrip
