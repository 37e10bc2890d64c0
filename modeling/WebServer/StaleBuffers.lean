import WebServer.Framing

namespace WebServer.StaleBuffers

open Message Process Segel RequestHandle Answers HeaderReading Framing
open RequestQueue (Timeval ThreadsStats)

variable {line : Bytes} {old old' : Locals}

/-- `Rio_readlineb` can return the line as the first of a connection. -/
def Delivered (line : Bytes) : Prop :=
  ∃ buf w n rio w₁, RioReadlineb rioReadinitb buf MAXLINE w = .returned (n, line, rio) w₁ ∧ 0 < n

/-- Whatever the buffers hold, the request is handled alike, and the URI of a GET is
taken from its line. -/
structure OwnRequest (line : Bytes) : Prop where
  same : ∀ {buf w n rio w₁ old old'},
    RioReadlineb rioReadinitb buf MAXLINE w = .returned (n, line, rio) w₁ → old.hdrs = old'.hdrs →
    ∀ fuel arrival dispatch stats, requestHandle fuel buf old arrival dispatch stats w =
      requestHandle fuel buf old' arrival dispatch stats w
  uri : ∀ {old}, isGet (sscanf line old) = true →
    (sscanf line old).uri ≠ [] ∧ (sscanf line old).uri <:+: line

/-- The line has a method, and where this is GET also a URI. -/
def Tokens (line : Bytes) : Prop :=
  ∃ method rest, scanString line = some (method, rest) ∧
    (strcasecmp method (str "GET") = true → ∃ uri rest', scanString rest = some (uri, rest'))

theorem scanString_token {s token rest : Bytes} (h : scanString s = some (token, rest)) :
    token ≠ [] ∧ token <:+: s ∧ rest <:+ s := by
  rw [scanString] at h
  split at h
  · cases h
  · next hne =>
    obtain ⟨rfl, rfl⟩ := Prod.mk.inj (Option.some.inj h)
    have hdrop : s.dropWhile isspace <:+ s := List.dropWhile_suffix _
    refine ⟨?_, (List.takeWhile_prefix _).isInfix.trans hdrop.isInfix,
      (List.dropWhile_suffix _).trans hdrop⟩
    obtain ⟨b, bs, hb⟩ := List.exists_cons_of_ne_nil hne
    have hspace : isspace b = false := by
      have hhead := List.head?_dropWhile_not isspace s
      rw [hb] at hhead
      simpa using hhead
    rw [hb, List.takeWhile_cons_of_pos (by simp [hspace])]
    simp

theorem sscanf_method {method rest : Bytes} (h : scanString line = some (method, rest))
    (old : Locals) : (sscanf line old).method = method ∧ (sscanf line old).hdrs = old.hdrs := by
  rw [sscanf, h]
  dsimp only
  split
  · exact ⟨rfl, rfl⟩
  · split <;> exact ⟨rfl, rfl⟩

theorem sscanf_uri {method rest uri rest' : Bytes} (h : scanString line = some (method, rest))
    (hu : scanString rest = some (uri, rest')) (old : Locals) : (sscanf line old).uri = uri := by
  simp only [sscanf, h, hu]
  split <;> rfl

theorem requestGet_congr {target target' : Target} (hs : target.isStatic = target'.isStatic)
    (hf : target.filename = target'.filename)
    (hc : target.isStatic = false → target.cgiargs = target'.cgiargs) (arrival dispatch : Timeval)
    (stats : ThreadsStats) :
    requestGet target arrival dispatch stats = requestGet target' arrival dispatch stats := by
  obtain ⟨isStatic, filename, cgiargs⟩ := target
  obtain ⟨isStatic', filename', cgiargs'⟩ := target'
  obtain rfl : isStatic = isStatic' := hs
  obtain rfl : filename = filename' := hf
  cases isStatic with
  | true => rfl
  | false =>
      obtain rfl : cgiargs = cgiargs' := hc rfl
      rfl

theorem requestParseURI_congr {uri : Bytes} (hu : uri ≠ []) (old old' : Locals) :
    (requestParseURI uri old).isStatic = (requestParseURI uri old').isStatic ∧
      (requestParseURI uri old).filename = (requestParseURI uri old').filename ∧
      ((requestParseURI uri old).isStatic = false →
        (requestParseURI uri old).cgiargs = (requestParseURI uri old').cgiargs) := by
  simp only [requestParseURI, List.getLast?_eq_some_getLast hu, Option.getD_some]
  split
  · exact ⟨rfl, rfl, nofun⟩
  · split <;> exact ⟨rfl, rfl, fun _ => rfl⟩

theorem own_of_tokens (h : Tokens line) : OwnRequest line := by
  obtain ⟨method, rest, hm, hu⟩ := h
  constructor
  · intro buf w n rio w₁ old old' hline hhdrs fuel arrival dispatch stats
    have hmethod : (sscanf line old).method = (sscanf line old').method := by
      rw [(sscanf_method hm old).1, (sscanf_method hm old').1]
    rw [requestHandle, requestHandle, bind_apply, bind_apply, hline]
    dsimp only
    rw [hmethod, hhdrs]
    by_cases hn : n ≤ 0
    · rw [if_pos hn, if_pos hn]
    rw [if_neg hn, if_neg hn]
    by_cases hget : strcasecmp (sscanf line old').method (str "GET") = true
    · rw [if_pos hget, if_pos hget]
      rw [(sscanf_method hm old').1] at hget
      obtain ⟨uri, rest', hu⟩ := hu hget
      obtain ⟨hs, hf, hc⟩ := requestParseURI_congr (scanString_token hu).1 (sscanf line old)
        (sscanf line old')
      rw [sscanf_uri hm hu, sscanf_uri hm hu, requestGet_congr hs hf hc]
    · rw [if_neg hget, if_neg hget]
  · intro old hget
    rw [isGet, (sscanf_method hm old).1] at hget
    obtain ⟨uri, rest', hu⟩ := hu hget
    obtain ⟨hne, hin, -⟩ := scanString_token hu
    rw [sscanf_uri hm hu]
    exact ⟨hne, hin.trans (scanString_token hm).2.2.isInfix⟩

theorem cutLine_length (k : Nat) (s : Bytes) : (cutLine k s).1.length ≤ k := by
  induction s generalizing k with
  | nil => cases k <;> simp [cutLine]
  | cons c s ih =>
      cases k with
      | zero => simp [cutLine]
      | succ k =>
          rw [cutLine]
          split
          · simp
          · exact Nat.succ_le_succ (ih k)

theorem readLoop_cut {k n m : Nat} {acc bs : Bytes} {rio rio' : Rio} {input input' : List ReadAnswer}
    (h : readLoop k n acc rio input = (.line m bs, rio', input')) :
    ∃ l, bs = acc ++ l ∧ cutLine k l = (l, []) ∧ (k ≠ 0 → n = 1 → l ≠ []) := by
  induction k generalizing n acc rio input with
  | zero =>
      rw [readLoop] at h
      cases h
      exact ⟨[], by simp, rfl, fun h => absurd rfl h⟩
  | succ k ih =>
      have hstop (hl : LineResult.line n acc = .line m bs) (hn : n ≠ 1) :
          ∃ l, bs = acc ++ l ∧ cutLine (k + 1) l = (l, []) ∧ (k + 1 ≠ 0 → n = 1 → l ≠ []) := by
        cases hl
        exact ⟨[], by simp, rfl, fun _ h => absurd h hn⟩
      rw [readLoop] at h
      generalize rioRead 1 rio input = r at h
      rcases r with ⟨(_ | ⟨c, _⟩) | _ | _, rio₁, input₁⟩
      · dsimp only at h
        split at h
        · cases h
        · next hn => exact hstop (Prod.mk.inj h).1 hn
      · dsimp only at h
        by_cases hc : c = 10
        · rw [if_pos hc] at h
          cases h
          exact ⟨[c], rfl, by rw [cutLine, if_pos hc], fun _ _ => by simp⟩
        · rw [if_neg hc] at h
          obtain ⟨l, hl, hcut, -⟩ := ih h
          refine ⟨c :: l, by simp [hl], ?_, fun _ _ => by simp⟩
          rw [cutLine, if_neg hc, hcut]
      · dsimp only at h
        split at h
        · cases h
        · next hn => exact hstop (Prod.mk.inj h).1 hn
      · cases h

theorem Delivered.bytes (h : Delivered line) : ∃ raw, line = cstr raw ∧ raw ≠ [] ∧
    raw.length ≤ 8192 ∧ cutLine (MAXLINE - 1) raw = (raw, []) := by
  obtain ⟨buf, w, n, rio, w₁, hr, hn⟩ := h
  rw [RioReadlineb] at hr
  split at hr
  · next m bs rio' input hl =>
    cases hr
    obtain ⟨l, hbs, hcut, hne⟩ := readLoop_cut hl
    refine ⟨l, congrArg cstr hbs, hne (by decide) rfl, ?_, hcut⟩
    have hlen := cutLine_length (MAXLINE - 1) l
    rw [hcut] at hlen
    exact Nat.le_trans hlen (by decide)
  · cases hr
    exact absurd hn (by decide)
  · cases hr

variable {raw : Bytes} {os : Os}

theorem line_answered (hne : raw ≠ []) (hlen : raw.length ≤ 8192)
    (hcut : cutLine (MAXLINE - 1) raw = (raw, [])) (hhdrs : old.hdrs = crlf)
    (hworks : (answer os (sscanf (cstr raw) old)).Works os) (arrival dispatch : Timeval)
    (stats : ThreadsStats) :
    ∃ w', requestHandle 1 [] old arrival dispatch stats (client os raw hne hlen) =
      .returned ((answer os (sscanf (cstr raw) old)).count stats) w' := by
  have hreceived : received (client os raw hne hlen).input = raw :=
    (received_data _ _ _ []).trans (List.append_nil _)
  obtain ⟨n, rio, input, hline, hrest, hclean, hn⟩ := request_line (w := client os raw hne hlen) []
    (by simp [client, connection, Clean]) (by rw [hreceived]; exact hne)
  rw [hreceived, hcut] at hline hrest
  have hhdrs : isGet (sscanf (cstr raw) old) = true → ∃ rio' w₂, requestReadhdrs 1 old.hdrs rio
      { client os raw hne hlen with input := input } = .returned rio' w₂ := fun _ => by
    refine ⟨⟨[]⟩, { client os raw hne hlen with input := [] }, ?_⟩
    rw [requestReadhdrs, bind_apply, RioReadlineb_eof _ hclean hrest, hhdrs]
    rfl
  have ha := @requestHandle_answered arrival dispatch stats old [] _ 1 n _ rio _ hline hn hhdrs
  obtain ⟨stats', w', hr, rfl, -⟩ := ha.returns fun _ hd => by
    have hfailed := hd.2 hworks
    simp [client, connection] at hfailed
  exact ⟨w', hr⟩

theorem line_delivered (hne : raw ≠ []) (hlen : raw.length ≤ 8192)
    (hcut : cutLine (MAXLINE - 1) raw = (raw, [])) (os : Os) : ∃ n rio w₁,
    RioReadlineb rioReadinitb [] MAXLINE (client os raw hne hlen) =
      .returned (n, cstr raw, rio) w₁ ∧ 0 < n := by
  have hreceived : received (client os raw hne hlen).input = raw :=
    (received_data _ _ _ []).trans (List.append_nil _)
  obtain ⟨n, rio, input, hline, -, -, hn⟩ := request_line (w := client os raw hne hlen) []
    (by simp [client, connection, Clean]) (by rw [hreceived]; exact hne)
  rw [hreceived, hcut] at hline
  exact ⟨n, rio, _, hline, hn⟩

theorem not_own_of_count (os : Os) (old old' : Locals) (hne : raw ≠ [])
    (hlen : raw.length ≤ 8192) (hcut : cutLine (MAXLINE - 1) raw = (raw, [])) (hold : old.hdrs = crlf) (hold' : old'.hdrs = crlf)
    (hworks : (answer os (sscanf (cstr raw) old)).Works os)
    (hworks' : (answer os (sscanf (cstr raw) old')).Works os)
    (hcount : (answer os (sscanf (cstr raw) old)).count ⟨1, 0, 0, 0, 0⟩ ≠
      (answer os (sscanf (cstr raw) old')).count ⟨1, 0, 0, 0, 0⟩) : ¬ OwnRequest (cstr raw) := by
  intro hown
  obtain ⟨n, rio, w₁, hline, hn⟩ := line_delivered hne hlen hcut os
  obtain ⟨w', hr⟩ := line_answered hne hlen hcut hold hworks ⟨0, 0⟩ ⟨0, 0⟩ ⟨1, 0, 0, 0, 0⟩
  obtain ⟨w'', hr'⟩ := line_answered hne hlen hcut hold' hworks' ⟨0, 0⟩ ⟨0, 0⟩ ⟨1, 0, 0, 0, 0⟩
  rw [hown.same hline (hold.trans hold'.symm), hr'] at hr
  exact hcount (Result.returned.inj hr).1.symm

def staleMethod (method : Bytes) : Locals := { unset with method := method, hdrs := crlf }

def staleUri (uri : Bytes) : Locals := { unset with uri := uri, hdrs := crlf }

theorem requestParseURI_plain (uri : Bytes) {b : UInt8} (hup : ¬ str ".." <:+: uri)
    (hcgi : ¬ str "cgi" <:+: uri) (hlast : uri.getLast? = some b) (hb : b ≠ 47) (old : Locals) :
    requestParseURI uri old = ⟨true, str "./public/" ++ uri, []⟩ := by
  rw [requestParseURI, if_neg hup, if_pos hcgi, hlast]
  exact congrArg (Target.mk true · []) (if_neg hb)

theorem answer_staleUri {method : Bytes} (hget : strcasecmp method (str "GET") = true) :
    answer (oneFile (str "./public/a") (str "hello")) { staleUri (str "a") with method := method } =
        .file (str "./public/a") 5 ∧
      answer (oneFile (str "./public/a") (str "hello")) { staleUri (str "b") with method := method } =
        .error (str "./public/b") (str "404") (str "Not found")
          (str "OS-HW3 Server could not find this file") := by
  have ha := requestParseURI_plain (str "a") (b := 97) (by decide) (by decide) (by decide) (by decide)
  have hb := requestParseURI_plain (str "b") (b := 98) (by decide) (by decide) (by decide) (by decide)
  simp only [answer, isGet, hget, if_true, staleUri, ha, hb]
  constructor <;> decide +kernel

theorem not_own_of_few (hd : Delivered line) (h : ¬ Tokens line) : ¬ OwnRequest line := by
  obtain ⟨raw, rfl, hne, hlen, hcut⟩ := hd.bytes
  cases hm : scanString (cstr raw) with
  | none =>
      have hscan (old : Locals) : sscanf (cstr raw) old = old := by rw [sscanf, hm]
      have hpost : answer .bare (staleMethod (str "POST")) = .log := by decide +kernel
      apply not_own_of_count .bare (staleMethod (str "POST")) (staleMethod (str "X")) hne hlen hcut
        rfl rfl
      · rw [hscan, hpost]
        exact Nat.two_pow_pos 31
      · rw [hscan]
        exact trivial
      · rw [hscan, hscan]
        decide +kernel
  | some token =>
      obtain ⟨method, rest⟩ := token
      have hget : strcasecmp method (str "GET") = true := by
        by_contra hget
        exact h ⟨method, rest, hm, fun h => absurd h hget⟩
      have hu : scanString rest = none := by
        cases hu : scanString rest with
        | none => rfl
        | some token => exact absurd ⟨method, rest, hm, fun _ => ⟨token.1, token.2, hu⟩⟩ h
      have hscan (old : Locals) : sscanf (cstr raw) old = { old with method := method } := by
        simp only [sscanf, hm, hu]
      obtain ⟨hfile, herror⟩ := answer_staleUri hget
      apply not_own_of_count (oneFile (str "./public/a") (str "hello")) (staleUri (str "a"))
        (staleUri (str "b")) hne hlen hcut rfl rfl
      · rw [hscan, hfile]
        exact ⟨4, by decide +kernel, rfl, rfl, rfl, by decide, by decide⟩
      · rw [hscan, herror]
        exact trivial
      · rw [hscan, hscan, hfile, herror]
        decide

/-- A request depends on its own line alone if and only if the line has as many tokens
as its method needs. -/
theorem own_request_iff (hd : Delivered line) : OwnRequest line ↔ Tokens line :=
  ⟨fun ho => by_contra fun h => not_own_of_few hd h ho, own_of_tokens⟩

theorem delivered_of_cut (hne : raw ≠ []) (hlen : raw.length ≤ 8192)
    (hcut : cutLine (MAXLINE - 1) raw = (raw, [])) : Delivered (cstr raw) := by
  obtain ⟨n, rio, w₁, hline, hn⟩ := line_delivered hne hlen hcut .bare
  exact ⟨_, _, n, rio, w₁, hline, hn⟩

theorem own_request_iff_root : OwnRequest (cstr (str "GET /\r\n")) :=
  (own_request_iff (delivered_of_cut (by decide) (by decide) (by decide +kernel))).2
    ⟨str "GET", str " /\r\n", by decide, fun _ => ⟨str "/", str "\r\n", by decide⟩⟩

/-- A GET without a URI, and a blank line. -/
theorem stale_requests :
    ¬ OwnRequest (cstr (str "GET\r\n")) ∧ ¬ OwnRequest (cstr (str "\r\n")) := by
  constructor
  · apply not_own_of_few (delivered_of_cut (by decide) (by decide) (by decide +kernel))
    rintro ⟨method, rest, hm, hu⟩
    have hscan : scanString (cstr (str "GET\r\n")) = some (str "GET", str "\r\n") := by decide
    rw [hscan] at hm
    cases hm
    obtain ⟨uri, rest', hu⟩ := hu (by decide)
    have hnone : scanString (str "\r\n") = none := by decide
    rw [hnone] at hu
    cases hu
  · apply not_own_of_few (delivered_of_cut (by decide) (by decide) (by decide +kernel))
    rintro ⟨method, rest, hm, -⟩
    have hnone : scanString (cstr (str "\r\n")) = none := by decide
    rw [hnone] at hm
    cases hm

end WebServer.StaleBuffers
