import WebServer.HeaderReading

namespace WebServer.HeaderFraming

open Message Process Segel RequestHandle HeaderReading

variable {line l a b s rest : Bytes} {headers : List Bytes} {rio rio' : Rio} {w w' : World}
  {buf stale : Bytes} {fuel : Nat}

/-- What follows the first string that is an empty line. -/
def restAfter (s : Bytes) : Option Bytes :=
  if h : s = [] then none
  else if (cutLine (MAXLINE - 1) s).1 = crlf then some (cutLine (MAXLINE - 1) s).2
  else restAfter (cutLine (MAXLINE - 1) s).2
termination_by s.length
decreasing_by exact cutLine_rest_lt h

theorem restAfter_nil : restAfter [] = none := by rw [restAfter, dif_pos rfl]

theorem restAfter_empty (hs : s ≠ []) (h : (cutLine (MAXLINE - 1) s).1 = crlf) :
    restAfter s = some (cutLine (MAXLINE - 1) s).2 := by
  rw [restAfter, dif_neg hs, if_pos h]

theorem restAfter_other (hs : s ≠ []) (h : (cutLine (MAXLINE - 1) s).1 ≠ crlf) :
    restAfter s = restAfter (cutLine (MAXLINE - 1) s).2 := by
  rw [restAfter, dif_neg hs, if_neg h]

theorem mem_fragments (h : restAfter s = some rest) : crlf ∈ fragments s := by
  induction hn : s.length using Nat.strong_induction_on generalizing s with
  | _ n ih =>
      have hs : s ≠ [] := by
        rintro rfl
        rw [restAfter_nil] at h
        cases h
      rw [fragments_cons hs, List.mem_cons]
      by_cases hcut : (cutLine (MAXLINE - 1) s).1 = crlf
      · exact .inl hcut.symm
      · rw [restAfter_other hs hcut] at h
        exact .inr (ih _ (hn ▸ cutLine_rest_lt hs) h rfl)

theorem requestReadhdrs_stops (hc : Clean w.input) (hs : stream rio w.input = [] → stale ≠ crlf)
    (h : requestReadhdrs fuel stale rio w = .returned rio' w') :
    restAfter (stream rio w.input) = some (stream rio' w'.input) := by
  induction fuel generalizing stale rio w with
  | zero =>
      obtain ⟨_, _, -, hloop⟩ := bind_returned.1 h
      cases hloop
  | succ fuel ih =>
      rw [requestReadhdrs, bind_apply] at h
      by_cases hnil : stream rio w.input = []
      · rw [RioReadlineb_eof stale hc hnil] at h
        dsimp only at h
        rw [readhdrsLoop, if_neg (hs hnil)] at h
        rw [hnil]
        exact ih (w := { w with input := [] }) (by simp [Clean]) (fun _ => hs hnil) h
      · obtain ⟨n, rio₁, input₁, hr, hs₁, hc₁, -⟩ := RioReadlineb_line stale hc hnil
        rw [hr] at h
        dsimp only at h
        by_cases hcut : (cutLine (MAXLINE - 1) (stream rio w.input)).1 = crlf
        · rw [readhdrsLoop, if_pos (cutLine_crlf.2 hcut)] at h
          cases h
          rw [restAfter_empty hnil hcut, ← hs₁]
        · have hother := mt cutLine_crlf.1 hcut
          rw [readhdrsLoop, if_neg hother] at h
          rw [restAfter_other hnil hcut, ← hs₁]
          exact ih (w := { w with input := input₁ }) hc₁ (fun _ => hother) h

theorem requestReadhdrs_rest_iff (hc : Clean w.input) (hs : stream rio w.input ≠ []) :
    (∃ fuel rio' w', requestReadhdrs fuel stale rio w = .returned rio' w' ∧
      stream rio' w'.input = rest) ↔ restAfter (stream rio w.input) = some rest := by
  constructor
  · rintro ⟨fuel, rio', w', h, rfl⟩
    exact requestReadhdrs_stops hc (fun h => absurd h hs) h
  · intro h
    obtain ⟨fuel, rio', w', hr⟩ := (requestReadhdrs_ends_iff hc).2 (.inl (mem_fragments h))
    refine ⟨fuel, rio', w', hr, ?_⟩
    have hstop := requestReadhdrs_stops hc (fun h => absurd h hs) hr
    exact Option.some.inj (hstop.symm.trans h)

/-- A line whose last piece is an empty line: its CR stands behind a multiple of the
bytes that one call of `Rio_readlineb` reads. -/
def EndsEmpty (l : Bytes) : Prop := l.getLast? = some 13 ∧ (MAXLINE - 1) ∣ l.length - 1

instance (l : Bytes) : Decidable (EndsEmpty l) := by
  unfold EndsEmpty
  infer_instance

theorem cutLine_full {k : Nat} (ha : 10 ∉ a) (hk : a.length = k) (s : Bytes) :
    cutLine k (a ++ s) = (a, s) := by
  induction a generalizing k with
  | nil =>
      subst hk
      rfl
  | cons c a ih =>
      obtain ⟨k, rfl⟩ : ∃ n, k = n + 1 := ⟨a.length, hk.symm⟩
      have hc : c ≠ 10 := fun h => ha (by simp [h])
      have hrest := ih (fun h => ha (List.mem_cons_of_mem _ h)) (Nat.succ.inj hk)
      rw [List.cons_append, cutLine, if_neg hc, hrest]

theorem endsEmpty_append (ha : a.length = MAXLINE - 1) : EndsEmpty (a ++ b) ↔ EndsEmpty b := by
  cases b with
  | nil =>
      rw [List.append_nil, EndsEmpty, EndsEmpty, ha, List.getLast?_nil]
      refine iff_of_false (fun h => ?_) fun h => ?_
      · exact absurd h.2 (by decide)
      · cases h.1
  | cons c b =>
      have hlen : (a ++ c :: b).length - 1 = (MAXLINE - 1) + ((c :: b).length - 1) := by
        rw [List.length_append, ha, List.length_cons]
        omega
      rw [EndsEmpty, EndsEmpty, hlen, Nat.dvd_add_right (Nat.dvd_refl _),
        List.getLast?_append_of_ne_nil _ (List.cons_ne_nil c b)]

theorem endsEmpty_short (h : l.length < MAXLINE - 1) : EndsEmpty l ↔ l = [13] := by
  constructor
  · rintro ⟨hlast, hdvd⟩
    obtain ⟨x, rfl⟩ := List.getLast?_eq_some_iff.1 hlast
    have hx : x.length = 0 := by
      rw [List.length_append, List.length_singleton] at h hdvd
      exact Nat.eq_zero_of_dvd_of_lt hdvd (by omega)
    rw [List.length_eq_zero_iff.1 hx, List.nil_append]
  · rintro rfl
    exact ⟨rfl, dvd_zero _⟩

theorem restAfter_line (hl : 10 ∉ l) (s : Bytes) :
    restAfter (l ++ 10 :: s) = if EndsEmpty l then some s else restAfter s := by
  induction hn : l.length using Nat.strong_induction_on generalizing l with
  | _ n ih =>
      have hne : l ++ 10 :: s ≠ [] := by simp
      by_cases hlt : l.length < MAXLINE - 1
      · have hcut := cutLine_line hl hlt s
        have hempty : l ++ [10] = crlf ↔ EndsEmpty l := by
          rw [endsEmpty_short hlt]
          exact @List.append_left_inj _ l [13] [10]
        by_cases he : EndsEmpty l
        · rw [if_pos he, restAfter_empty hne (by rw [hcut]; exact hempty.2 he), hcut]
        · rw [if_neg he, restAfter_other hne (by rw [hcut]; exact mt hempty.1 he), hcut]
      · obtain ⟨a, b, rfl, ha⟩ : ∃ a b, l = a ++ b ∧ a.length = MAXLINE - 1 :=
          ⟨l.take (MAXLINE - 1), l.drop (MAXLINE - 1), (List.take_append_drop _ _).symm,
            List.length_take_of_le (by omega)⟩
        rw [List.mem_append, not_or] at hl
        have hcut : cutLine (MAXLINE - 1) (a ++ b ++ 10 :: s) = (a, b ++ 10 :: s) := by
          rw [List.append_assoc]
          exact cutLine_full hl.1 ha _
        have hother : a ≠ crlf := by
          rintro rfl
          exact absurd ha (by decide)
        have hshorter : b.length < n := by
          rw [← hn, List.length_append, ha]
          exact Nat.lt_add_of_pos_left (by decide)
        rw [restAfter_other hne (by rw [hcut]; exact hother), hcut, ih _ hshorter hl.2 rfl]
        simp only [endsEmpty_append ha]

def HeaderLine (l : Bytes) : Prop := 10 ∉ l ∧ l ≠ [13]

def headersText (headers : List Bytes) : Bytes := headers.flatMap fun l => l ++ [10]

theorem restAfter_headers_iff (hh : ∀ l ∈ headers, HeaderLine l) (rest : Bytes) :
    restAfter (headersText headers ++ (crlf ++ rest)) = some rest ↔
      ∀ l ∈ headers, ¬ EndsEmpty l := by
  induction headers with
  | nil =>
      have hcrlf : headersText [] ++ (crlf ++ rest) = [13] ++ 10 :: rest := rfl
      rw [hcrlf, restAfter_line (by decide), if_pos (by decide)]
      simp
  | cons l headers ih =>
      have ih := ih fun x hx => hh x (List.mem_cons_of_mem _ hx)
      have hsplit : headersText (l :: headers) ++ (crlf ++ rest) =
          l ++ 10 :: (headersText headers ++ (crlf ++ rest)) := by
        simp [headersText]
      rw [hsplit, restAfter_line (hh l (by simp)).1, List.forall_mem_cons, ← ih]
      by_cases he : EndsEmpty l
      · rw [if_pos he]
        refine iff_of_false (fun h => ?_) fun h => h.1 he
        have hlen := congrArg List.length (Option.some.inj h)
        simp only [List.length_append, crlf, List.length_cons, List.length_nil] at hlen
        omega
      · rw [if_neg he, and_iff_right he]

/-- The request line is read, and then the headers up to and including their empty line
and no byte more. -/
def ReadExactly (buf stale line rest : Bytes) (w : World) : Prop :=
  ∃ n rio w₁, RioReadlineb rioReadinitb buf MAXLINE w =
      .returned (n, cstr (line ++ [10]), rio) w₁ ∧ 0 < n ∧
    ∃ fuel rio' w', requestReadhdrs fuel stale rio w₁ = .returned rio' w' ∧
      stream rio' w'.input = rest

/-- The headers are read exactly if and only if no header line is cut in front of
its CR. -/
theorem headers_exact_iff (hl : 10 ∉ line) (hlen : line.length ≤ 8190)
    (hh : ∀ l ∈ headers, HeaderLine l) (hc : Clean w.input)
    (hw : received w.input = line ++ 10 :: (headersText headers ++ (crlf ++ rest))) :
    ReadExactly buf stale line rest w ↔ ∀ l ∈ headers, ¬ EndsEmpty l := by
  obtain ⟨n, rio, input₁, hr, hs, hc₁, hn⟩ := request_line buf hc (by rw [hw]; simp)
  have hlt : line.length < MAXLINE - 1 := Nat.lt_succ_of_le hlen
  rw [hw, cutLine_line hl hlt] at hr hs
  have hiff := @requestReadhdrs_rest_iff rest rio { w with input := input₁ } stale hc₁
    (by rw [hs]; simp [crlf])
  rw [hs, restAfter_headers_iff hh] at hiff
  rw [← hiff]
  constructor
  · rintro ⟨_, _, _, hr', -, h⟩
    rw [hr] at hr'
    cases hr'
    exact h
  · exact fun h => ⟨n, rio, _, hr, hn, h⟩

theorem headers_exact_iff_emptyLine :
    ReadExactly [] [] (str "GET / HTTP/1.0\r") (str "body")
      (client .bare (str "GET / HTTP/1.0\r\nHost: a\r\n\r\nbody") (by decide) (by decide)) := by
  have hline : HeaderLine (str "Host: a\r") := ⟨by decide, by decide⟩
  have hlines : ∀ l ∈ [str "Host: a\r"], HeaderLine l := by simpa
  refine (headers_exact_iff (by decide) (by decide) hlines (by simp [client, connection, Clean])
    (by decide)).2 ?_
  simp only [List.forall_mem_cons, List.not_mem_nil, false_imp_iff, implies_true, and_true]
  decide

def piece : Bytes := List.replicate (MAXLINE - 1) 97

theorem piece_length : piece.length = MAXLINE - 1 := List.length_replicate

theorem piece_ne : piece ≠ [] := List.ne_nil_of_length_pos (by rw [piece_length]; decide)

theorem piece_fits : piece.length ≤ 8192 := by rw [piece_length]; decide

theorem piece_line : HeaderLine (piece ++ [13]) := by
  constructor
  · rw [List.mem_append, not_or, piece, List.mem_replicate]
    exact ⟨fun h => absurd h.2 (by decide), by decide⟩
  · simp [piece_ne]

def longHeader : World :=
  connection .bare
    [.data (str "GET / HTTP/1.0\r\n") (by decide) (by decide), .data piece piece_ne piece_fits,
      .data (str "\r\nHost: a\r\n\r\n") (by decide) (by decide)] []

theorem longHeader_received : received longHeader.input = str "GET / HTTP/1.0\r" ++ 10 ::
    (headersText [piece ++ [13], str "Host: a\r"] ++ (crlf ++ [])) := by
  have hget : str "GET / HTTP/1.0\r\n" = str "GET / HTTP/1.0\r" ++ [10] := by decide
  have hend : str "\r\nHost: a\r\n\r\n" = [13, 10] ++ (str "Host: a\r" ++ 10 :: crlf) := by decide
  simp [longHeader, connection, headersText, hget, hend]

/-- The line is taken for the end of the headers, and the next one is left unread. -/
theorem headers_cut : ¬ ReadExactly [] [] (str "GET / HTTP/1.0\r") [] longHeader := by
  have hhost : HeaderLine (str "Host: a\r") := ⟨by decide, by decide⟩
  have hends : EndsEmpty (piece ++ [13]) := (endsEmpty_append piece_length).2 (by decide)
  have hiff := @headers_exact_iff _ [] [piece ++ [13], str "Host: a\r"] longHeader [] [] (by decide)
    (by decide) (by simp [piece_line, hhost]) (by simp [longHeader, connection, Clean])
    longHeader_received
  intro hexact
  exact hiff.1 hexact (piece ++ [13]) (by simp) hends

end WebServer.HeaderFraming
