import WebServer.Framing

namespace WebServer.ClientRequest

open Message Process Segel RequestHandle Sending Answers HeaderReading Framing

/-- `Gethostname`, of which `gethostname` is what the system call answers. -/
def Gethostname (gethostname : Option Bytes) : Sys Bytes :=
  match gethostname with
  | some hostname => pure hostname
  | none => unixError

/-- What the two `sprintf` calls of `clientSend` leave in its buffer. -/
def requestText (filename method hostname : Bytes) : Bytes :=
  let buf := method ++ str " " ++ filename ++ str " HTTP/1.1\n"
  buf ++ (str "host: " ++ hostname ++ str "\n\r\n")

def clientSend (gethostname : Option Bytes) (filename method : Bytes) : Sys Unit := do
  let hostname ← Gethostname gethostname
  let buf := requestText filename method hostname
  printf (str "Request:\n" ++ buf ++ str "\n")
  RioWriten buf buf.length

/-- What one `%s` reads. -/
def Word (bs : Bytes) : Prop := bs ≠ [] ∧ ∀ b ∈ bs, isspace b = false ∧ b ≠ 0

instance (bs : Bytes) : Decidable (Word bs) :=
  have := List.decidableBAll (fun b => isspace b = false ∧ b ≠ 0) bs
  inferInstanceAs (Decidable (bs ≠ [] ∧ ∀ b ∈ bs, isspace b = false ∧ b ≠ 0))

theorem cstr_eq {bs : Bytes} (h : 0 ∉ bs) : cstr bs = bs := by
  have hall : ∀ b ∈ bs, decide (b ≠ 0) = true := fun b hb => by
    have hb0 : b ≠ 0 := fun h0 => h (h0 ▸ hb)
    simpa using hb0
  rw [cstr, ← List.append_nil bs, List.takeWhile_append_of_pos hall, List.takeWhile_nil]

theorem Word.no_lf {bs : Bytes} (h : Word bs) : 10 ∉ bs := fun hm =>
  absurd (h.2 10 hm).1 (by decide)

theorem Word.no_nul {bs : Bytes} (h : Word bs) : 0 ∉ bs := fun hm => (h.2 0 hm).2 rfl

theorem dropWhile_word {word : Bytes} (hw : Word word) (rest : Bytes) :
    (word ++ rest).dropWhile isspace = word ++ rest := by
  obtain ⟨b, bs, rfl⟩ := List.exists_cons_of_ne_nil hw.1
  rw [List.cons_append, List.dropWhile_cons_of_neg]
  simp [(hw.2 b (by simp)).1]

theorem scanString_word {word : Bytes} (hw : Word word) {c : UInt8} (hc : isspace c = true)
    (rest : Bytes) : scanString (word ++ c :: rest) = some (word, c :: rest) := by
  have hall : ∀ b ∈ word, (!isspace b) = true := fun b hb => by simp [(hw.2 b hb).1]
  have hne : word ++ c :: rest ≠ [] := by simp
  simp only [scanString, dropWhile_word hw, if_neg hne]
  rw [List.takeWhile_append_of_pos hall, List.dropWhile_append_of_pos hall]
  simp [hc]

theorem scanString_space {c : UInt8} (hc : isspace c = true) (rest : Bytes) :
    scanString (c :: rest) = scanString rest := by
  simp only [scanString, List.dropWhile_cons_of_pos hc]

variable {filename method hostname rest : Bytes} {w : World}

theorem sscanf_request (hm : Word method) (hf : Word filename) (old : Locals) :
    sscanf (method ++ str " " ++ filename ++ str " HTTP/1.1\n") old =
      { old with method := method, uri := filename, version := str "HTTP/1.1" } := by
  have hversion : Word (str "HTTP/1.1") := by decide +kernel
  have hline : method ++ str " " ++ filename ++ str " HTTP/1.1\n" =
      method ++ 32 :: (filename ++ 32 :: (str "HTTP/1.1" ++ 10 :: [])) := by
    have hend : str " HTTP/1.1\n" = 32 :: (str "HTTP/1.1" ++ 10 :: []) := by decide
    have hblank : str " " = [32] := by decide
    simp [hend, hblank]
  rw [hline, sscanf]
  simp only [scanString_word hm (c := 32) rfl, scanString_space (c := 32) rfl,
    scanString_word hf (c := 32) rfl, scanString_word hversion (c := 10) rfl]

theorem requestText_eq : requestText filename method hostname =
    (method ++ str " " ++ filename ++ str " HTTP/1.1") ++ 10 ::
      ((str "host: " ++ hostname) ++ 10 :: crlf) := by
  have hend : str " HTTP/1.1\n" = str " HTTP/1.1" ++ [10] := by decide
  have hempty : str "\n\r\n" = 10 :: crlf := by decide
  simp [requestText, hend, hempty]

theorem clientSend_returns (hw : .failed ∉ w.writes) :
    ∃ w', clientSend (some hostname) filename method w = .returned () w' ∧
      w'.sent = w.sent ++ requestText filename method hostname := by
  have h : (clientSend (some hostname) filename method).Ensures w
      (fun _ w' => Sends (requestText filename method hostname) w w') (Dropped True w) := by
    rw [clientSend, ensures_bind]
    apply (sends_nil w.stdout w.query).printf_bind
    intro w₁ h₁
    apply (send_ensures _).mono _ fun _ hd => h₁.dropped hd
    rintro - w₂ ⟨-, h₂⟩
    exact h₁.trans h₂
  obtain ⟨_, w', hr, hs⟩ := h.returns fun _ hd => hw (hd.2 trivial)
  exact ⟨w', hr, hs.sent⟩

theorem requestReadhdrs_host {rio : Rio} (stale : Bytes) (hc : Clean w.input) (hh : 10 ∉ hostname)
    (hlen : (str "host: " ++ hostname).length < MAXLINE - 1)
    (hs : stream rio w.input = (str "host: " ++ hostname) ++ 10 :: (crlf ++ rest)) :
    ∃ fuel rio' w', requestReadhdrs fuel stale rio w = .returned rio' w' ∧
      stream rio' w'.input = rest := by
  have hno : 10 ∉ str "host: " ++ hostname := by
    rw [List.mem_append, not_or]
    exact ⟨by decide, hh⟩
  obtain ⟨n, rio₁, input₁, hline, hs₁, hc₁, -⟩ := RioReadlineb_line stale hc (by rw [hs]; simp)
  rw [hs, cutLine_line hno hlen] at hline hs₁
  have hcut : cutLine (MAXLINE - 1) (crlf ++ rest) = (crlf, rest) :=
    cutLine_line (l := [13]) (by decide) (by decide) rest
  obtain ⟨m, rio₂, input₂, hempty, hs₂, -, -⟩ := RioReadlineb_line
    (w := { w with input := input₁ }) (cstr (str "host: " ++ hostname ++ [10])) hc₁
    (by rw [hs₁]; simp [crlf])
  rw [hs₁, hcut] at hempty hs₂
  refine ⟨2, rio₂, { w with input := input₂ }, ?_, hs₂⟩
  have hne : cstr (str "host: " ++ hostname ++ [10]) ≠ crlf := by
    have hfirst : str "host: " ++ hostname ++ [10] = 104 :: (str "ost: " ++ hostname ++ [10]) := by
      have hh : str "host: " = 104 :: str "ost: " := by decide
      simp [hh]
    rw [hfirst, cstr, List.takeWhile_cons_of_pos (by decide)]
    intro he
    exact absurd (List.cons.inj he).1 (by decide)
  rw [requestReadhdrs, bind_apply, hline]
  dsimp only
  rw [readhdrsLoop, if_neg hne, bind_apply, hempty]
  rfl

theorem request_first (hm : Word method) (hf : Word filename) :
    10 ∉ method ++ str " " ++ filename ++ str " HTTP/1.1" ∧
      cstr ((method ++ str " " ++ filename ++ str " HTTP/1.1") ++ [10]) =
        method ++ str " " ++ filename ++ str " HTTP/1.1\n" := by
  have hend : str " HTTP/1.1" ++ [10] = str " HTTP/1.1\n" := by decide
  constructor
  · simp only [List.mem_append, not_or]
    exact ⟨⟨⟨hm.no_lf, by decide⟩, hf.no_lf⟩, by decide⟩
  · rw [List.append_assoc, hend]
    apply cstr_eq
    simp only [List.mem_append, not_or]
    exact ⟨⟨⟨hm.no_nul, by decide⟩, hf.no_nul⟩, by decide⟩

theorem request_read (hm : Word method) (hf : Word filename) (hh : 10 ∉ hostname)
    (hlen : (requestText filename method hostname).length < MAXLINE) (hc : Clean w.input)
    (hr : received w.input = requestText filename method hostname ++ rest) (buf : Bytes) :
    ∃ n line rio w₁, RioReadlineb rioReadinitb buf MAXLINE w = .returned (n, line, rio) w₁ ∧
      0 < n ∧
      (∀ old, sscanf line old =
        { old with method := method, uri := filename, version := str "HTTP/1.1" }) ∧
      ∀ stale, ∃ fuel rio' w₂, requestReadhdrs fuel stale rio w₁ = .returned rio' w₂ ∧
        stream rio' w₂.input = rest := by
  have hscan := sscanf_request hm hf
  obtain ⟨hno, hcstr⟩ := request_first hm hf
  rw [requestText_eq] at hr hlen
  have hr : received w.input = (method ++ str " " ++ filename ++ str " HTTP/1.1") ++ 10 ::
      ((str "host: " ++ hostname) ++ 10 :: (crlf ++ rest)) := by
    rw [hr]
    simp
  generalize method ++ str " " ++ filename ++ str " HTTP/1.1" = first at hr hlen hno hcstr
  have hlens : first.length < MAXLINE - 1 ∧ (str "host: " ++ hostname).length < MAXLINE - 1 := by
    simp only [List.length_append, List.length_cons] at hlen ⊢
    omega
  obtain ⟨n, rio, input₁, hline, hs, hc₁, hn⟩ := request_line buf hc (by rw [hr]; simp)
  rw [hr, cutLine_line hno hlens.1] at hline hs
  rw [hcstr] at hline
  exact ⟨n, _, rio, _, hline, hn, hscan, fun stale =>
    requestReadhdrs_host stale hc₁ hh hlens.2 hs⟩

/-- Whatever the method, the file and the host are called, the server reads what the
client has written: the request line word by word, and the headers up to their end. It
answers the request of that line. -/
theorem request_understood (hm : Word method) (hf : Word filename) (hh : 10 ∉ hostname)
    (hlen : (requestText filename method hostname).length < MAXLINE) :
    (∀ w, .failed ∉ w.writes → ∃ w', clientSend (some hostname) filename method w = .returned () w' ∧
      w'.sent = w.sent ++ requestText filename method hostname) ∧
    ∀ w rest, Clean w.input → received w.input = requestText filename method hostname ++ rest →
      ∀ buf, (∃ n line rio w₁,
        RioReadlineb rioReadinitb buf MAXLINE w = .returned (n, line, rio) w₁ ∧ 0 < n ∧
        (∀ old, sscanf line old =
          { old with method := method, uri := filename, version := str "HTTP/1.1" }) ∧
        ∀ stale, ∃ fuel rio' w₂, requestReadhdrs fuel stale rio w₁ = .returned rio' w₂ ∧
          stream rio' w₂.input = rest) ∧
        ∀ old arrival dispatch stats, ∃ fuel reply, reply = answer w.os
            { old with method := method, uri := filename, version := str "HTTP/1.1" } ∧
          (requestHandle fuel buf old arrival dispatch stats).Ensures w
            (fun stats' w' => stats' = reply.count stats ∧
              Answered reply stats arrival dispatch w w')
            (Dropped (reply.Works w.os) w) := by
  refine ⟨fun w hw => clientSend_returns hw, fun w rest hc hr buf => ?_⟩
  have hread := request_read hm hf hh hlen hc hr buf
  refine ⟨hread, fun old arrival dispatch stats => ?_⟩
  obtain ⟨n, line, rio, w₁, hline, hn, hscan, hhdrs⟩ := hread
  obtain ⟨fuel, rio', w₂, hhdrs, -⟩ := hhdrs old.hdrs
  refine ⟨fuel, _, rfl, ?_⟩
  rw [← hscan old]
  exact requestHandle_answered hline hn fun _ => ⟨rio', w₂, hhdrs⟩

def asking : World :=
  connection .bare [.data (str "GET / HTTP/1.1\nho") (by decide) (by decide), .eintr,
    .data (str "st: a\n\r\n") (by decide) (by decide)] []

theorem request_understood_asking : ∃ n line rio w₁,
    RioReadlineb rioReadinitb [] MAXLINE asking = .returned (n, line, rio) w₁ ∧ 0 < n ∧
      (∀ old, sscanf line old =
        { old with method := str "GET", uri := str "/", version := str "HTTP/1.1" }) ∧
      ∀ stale, ∃ fuel rio' w₂, requestReadhdrs fuel stale rio w₁ = .returned rio' w₂ ∧
        stream rio' w₂.input = [] := by
  have hreceived : received asking.input = requestText (str "/") (str "GET") (str "a") ++ [] := by
    decide +kernel
  exact (request_understood (by decide +kernel) (by decide +kernel) (by decide +kernel)
    (by decide +kernel)).2 asking []
    (by simp [asking, connection, Clean]) hreceived [] |>.1

end WebServer.ClientRequest
