import WebServer.Answers

namespace WebServer.HeaderReading

open Message Process Segel RequestHandle Sending Answers
open RequestQueue (Timeval ThreadsStats)

/-- The first line of a stream, at most `k` bytes of it, and the rest. -/
def cutLine : (k : Nat) → Bytes → Bytes × Bytes
  | 0, s => ([], s)
  | _ + 1, [] => ([], [])
  | k + 1, c :: s => if c = 10 then ([c], s) else ((c :: (cutLine k s).1), (cutLine k s).2)

theorem cutLine_append (k : Nat) (s : Bytes) : (cutLine k s).1 ++ (cutLine k s).2 = s := by
  induction s generalizing k with
  | nil => cases k <;> rfl
  | cons c s ih =>
      cases k with
      | zero => rfl
      | succ k =>
          rw [cutLine]
          split
          · rfl
          · simp [ih]

theorem cutLine_rest_lt {k : Nat} {s : Bytes} (hs : s ≠ []) :
    (cutLine (k + 1) s).2.length < s.length := by
  cases s with
  | nil => exact absurd rfl hs
  | cons c s =>
      rw [cutLine]
      split
      · simp
      · have h := congrArg List.length (cutLine_append k s)
        simp only [List.length_append, List.length_cons] at h ⊢
        omega

/-- The strings `Rio_readlineb` reads from a stream: it is cut after each LF and
after `MAXLINE - 1` bytes. -/
def fragments (s : Bytes) : List Bytes :=
  if h : s = [] then [] else (cutLine (MAXLINE - 1) s).1 :: fragments (cutLine (MAXLINE - 1) s).2
termination_by s.length
decreasing_by exact cutLine_rest_lt h

theorem fragments_nil : fragments [] = [] := by simp [fragments]

theorem fragments_cons {s : Bytes} (hs : s ≠ []) :
    fragments s = (cutLine (MAXLINE - 1) s).1 :: fragments (cutLine (MAXLINE - 1) s).2 := by
  rw [fragments, dif_neg hs]

theorem cutLine_lf {k : Nat} {s l t : Bytes} (h : (cutLine k s).1 = l ++ 10 :: t) : t = [] := by
  induction s generalizing k l with
  | nil => cases k <;> simp [cutLine] at h
  | cons c s ih =>
      cases k with
      | zero => simp [cutLine] at h
      | succ k =>
          rw [cutLine] at h
          by_cases hc : c = 10
          · rw [if_pos hc] at h
            have hlen := congrArg List.length h
            simp only [List.length_append, List.length_cons, List.length_nil] at hlen
            exact List.length_eq_zero_iff.1 (by omega)
          · rw [if_neg hc] at h
            cases l with
            | nil => exact absurd (List.cons.inj h).1 hc
            | cons x l => exact ih (List.cons.inj h).2

theorem cutLine_line {k : Nat} {l : Bytes} (hl : 10 ∉ l) (hk : l.length < k) (s : Bytes) :
    cutLine k (l ++ 10 :: s) = (l ++ [10], s) := by
  induction l generalizing k with
  | nil =>
      obtain ⟨k, rfl⟩ := Nat.exists_eq_succ_of_ne_zero (Nat.ne_of_gt hk)
      rfl
  | cons c l ih =>
      obtain ⟨k, rfl⟩ := Nat.exists_eq_succ_of_ne_zero (Nat.ne_of_gt (Nat.zero_lt_of_lt hk))
      have hc : c ≠ 10 := fun h => hl (by simp [h])
      have hrest := ih (fun h => hl (List.mem_cons_of_mem _ h)) (Nat.lt_of_succ_lt_succ hk)
      rw [List.cons_append, cutLine, if_neg hc, hrest]
      rfl

theorem cutLine_crlf {k : Nat} {s : Bytes} : cstr (cutLine k s).1 = crlf ↔ (cutLine k s).1 = crlf := by
  refine ⟨fun h => ?_, fun h => by rw [h]; rfl⟩
  have hcut : (cutLine k s).1 = crlf ++ (cutLine k s).1.dropWhile fun b => decide (b ≠ 0) := by
    rw [← h, cstr, List.takeWhile_append_dropWhile]
  have ht : (cutLine k s).1.dropWhile (fun b => decide (b ≠ 0)) = [] := cutLine_lf (l := [13]) hcut
  rw [hcut, ht, List.append_nil]

def received (input : List ReadAnswer) : Bytes :=
  input.flatMap fun
    | .data bs _ _ => bs
    | _ => []

@[simp] theorem received_nil : received [] = [] := rfl

@[simp] theorem received_eintr (input : List ReadAnswer) :
    received (.eintr :: input) = received input := rfl

@[simp] theorem received_data (bs : Bytes) (hne : bs ≠ []) (hle : bs.length ≤ 8192)
    (input : List ReadAnswer) :
    received (.data bs hne hle :: input) = bs ++ received input := rfl

def stream (rio : Rio) (input : List ReadAnswer) : Bytes := rio.unread ++ received input

/-- No `read` fails; EINTR is no failure. -/
def Clean (input : List ReadAnswer) : Prop := ∀ a ∈ input, a ≠ .failed

theorem rioRead_eof {rio : Rio} {input : List ReadAnswer} (hc : Clean input)
    (hs : stream rio input = []) : rioRead 1 rio input = (.eof, ⟨[]⟩, []) := by
  induction input generalizing rio with
  | nil =>
      obtain ⟨unread⟩ := rio
      obtain rfl : unread = [] := by simpa [stream] using hs
      rfl
  | cons a input ih =>
      obtain ⟨unread⟩ := rio
      obtain ⟨rfl, hs'⟩ : unread = [] ∧ _ := List.append_eq_nil_iff.1 hs
      have hc' : Clean input := fun x hx => hc x (List.mem_cons_of_mem _ hx)
      cases a with
      | data bs hne _ => exact absurd (List.append_eq_nil_iff.1 hs').1 hne
      | eintr => exact ih hc' (by simpa [stream] using hs')
      | failed => exact absurd rfl (hc _ (by simp))

theorem rioRead_got {rio : Rio} {input : List ReadAnswer} {c : UInt8} {s : Bytes} (hc : Clean input)
    (hs : stream rio input = c :: s) : ∃ rio' input', rioRead 1 rio input = (.got [c], rio', input') ∧
      stream rio' input' = s ∧ Clean input' := by
  induction input generalizing rio with
  | nil =>
      obtain ⟨unread⟩ := rio
      obtain rfl : unread = c :: s := by simpa [stream] using hs
      exact ⟨⟨s⟩, [], rfl, by simp [stream], hc⟩
  | cons a input ih =>
      obtain ⟨unread⟩ := rio
      cases unread with
      | cons b bs =>
          rw [stream, List.cons_append] at hs
          obtain ⟨rfl, hs'⟩ := List.cons.inj hs
          exact ⟨⟨bs⟩, a :: input, rfl, hs', hc⟩
      | nil =>
          have hc' : Clean input := fun x hx => hc x (List.mem_cons_of_mem _ hx)
          cases a with
          | data bs hne hle =>
              obtain ⟨rio', input', hr, hs', hc''⟩ := @ih ⟨bs⟩ hc' (by simpa [stream] using hs)
              refine ⟨rio', input', ?_, hs', hc''⟩
              rw [rioRead]
              exact hr
          | eintr => exact ih hc' (by simpa [stream] using hs)
          | failed => exact absurd rfl (hc _ (by simp))

/-- What `rio_readlineb` returns for a line: its length, and one more where no LF ends it. -/
def lineCount (l : Bytes) : Nat := if l.getLast? = some 10 then l.length else l.length + 1

theorem lineCount_cons {c : UInt8} (hc : c ≠ 10) (l : Bytes) : lineCount (c :: l) = lineCount l + 1 := by
  cases l with
  | nil => simp [lineCount, hc]
  | cons b l =>
      rw [lineCount, lineCount, List.getLast?_cons_cons]
      split <;> rfl

theorem lineCount_pos (l : Bytes) : 0 < lineCount l := by
  rw [lineCount]
  split
  · next h => exact List.length_pos_of_mem (List.mem_of_getLast? h)
  · exact Nat.succ_pos _

theorem readLoop_cut {k n : Nat} (acc : Bytes) {s : Bytes} {rio : Rio} {input : List ReadAnswer}
    (hc : Clean input) (hs : stream rio input = s) (hn : 0 < n) (hd : n ≠ 1 ∨ s ≠ []) :
    ∃ rio' input', readLoop k n acc rio input =
        (.line (n + lineCount (cutLine k s).1 - 1) (acc ++ (cutLine k s).1), rio', input') ∧
      stream rio' input' = (cutLine k s).2 ∧ Clean input' := by
  induction k generalizing n acc s rio input with
  | zero => exact ⟨rio, input, by simp [readLoop, cutLine, lineCount], hs, hc⟩
  | succ k ih =>
      cases s with
      | nil =>
          have hn1 : n ≠ 1 := hd.resolve_right (by simp)
          refine ⟨⟨[]⟩, [], ?_, rfl, by simp [Clean]⟩
          simp [readLoop, rioRead_eof hc hs, hn1, cutLine, lineCount]
      | cons c s =>
          obtain ⟨rio₁, input₁, hr, hs₁, hc₁⟩ := rioRead_got hc hs
          by_cases h10 : c = 10
          · refine ⟨rio₁, input₁, ?_, ?_, hc₁⟩ <;> simp [readLoop, hr, h10, cutLine, hs₁, lineCount]
          · obtain ⟨rio', input', hl, hs', hc'⟩ :=
              ih (acc ++ [c]) (n := n + 1) hc₁ hs₁ (Nat.succ_pos n) (.inl (by omega))
            have hcount : n + 1 + lineCount (cutLine k s).1 - 1 =
                n + lineCount (c :: (cutLine k s).1) - 1 := by
              rw [lineCount_cons h10]
              omega
            refine ⟨rio', input', ?_, ?_, hc'⟩
            · simp only [readLoop, hr, h10, if_false, hl, cutLine, hcount]
              simp
            · simp [cutLine, h10, hs']

theorem readLoop_eof {k : Nat} {rio : Rio} {input : List ReadAnswer} (hc : Clean input)
    (hs : stream rio input = []) : readLoop (k + 1) 1 [] rio input = (.eof, ⟨[]⟩, []) := by
  simp [readLoop, rioRead_eof hc hs]

theorem RioReadlineb_eof {rio : Rio} {w : World} (buf : Bytes) (hc : Clean w.input)
    (hs : stream rio w.input = []) :
    RioReadlineb rio buf MAXLINE w = .returned (0, buf, ⟨[]⟩) { w with input := [] } := by
  simp [RioReadlineb, rioReadlineb, MAXLINE, readLoop_eof hc hs]

theorem RioReadlineb_cut {rio : Rio} {w : World} (buf : Bytes) (hc : Clean w.input)
    (hs : stream rio w.input ≠ []) :
    ∃ rio' input', RioReadlineb rio buf MAXLINE w = .returned
        (lineCount (cutLine (MAXLINE - 1) (stream rio w.input)).1,
          cstr (cutLine (MAXLINE - 1) (stream rio w.input)).1, rio') { w with input := input' } ∧
      stream rio' input' = (cutLine (MAXLINE - 1) (stream rio w.input)).2 ∧ Clean input' := by
  obtain ⟨rio', input', hl, hs', hc'⟩ := @readLoop_cut (MAXLINE - 1) 1 [] _ _ _ hc rfl Nat.one_pos (.inr hs)
  refine ⟨rio', input', ?_, hs', hc'⟩
  simp [RioReadlineb, rioReadlineb, hl]

theorem RioReadlineb_line {rio : Rio} {w : World} (buf : Bytes) (hc : Clean w.input)
    (hs : stream rio w.input ≠ []) :
    ∃ n rio' input', RioReadlineb rio buf MAXLINE w = .returned
        (n, cstr (cutLine (MAXLINE - 1) (stream rio w.input)).1, rio') { w with input := input' } ∧
      stream rio' input' = (cutLine (MAXLINE - 1) (stream rio w.input)).2 ∧ Clean input' ∧ 0 < n := by
  obtain ⟨rio', input', hr, hs', hc'⟩ := RioReadlineb_cut buf hc hs
  exact ⟨_, rio', input', hr, hs', hc', Int.natCast_pos.2 (lineCount_pos _)⟩

/-- The loop ends at the empty line. Nothing else ends it: past the end of the
stream the buffer keeps its last string. -/
theorem readhdrsLoop_ends_iff {rio : Rio} {w : World} {buf : Bytes} (hc : Clean w.input) :
    (∃ fuel rio' w', readhdrsLoop fuel buf rio w = .returned rio' w') ↔
      buf = crlf ∨ crlf ∈ fragments (stream rio w.input) := by
  constructor
  · rintro ⟨fuel, rio', w', h⟩
    induction fuel generalizing buf rio w with
    | zero => simp [readhdrsLoop] at h
    | succ fuel ih =>
        by_cases hb : buf = crlf
        · exact .inl hb
        · right
          rw [readhdrsLoop, if_neg hb] at h
          by_cases hs : stream rio w.input = []
          · rw [bind_apply, RioReadlineb_eof buf hc hs] at h
            have hnil : stream ⟨[]⟩ [] = [] := rfl
            rcases ih (w := { w with input := [] }) (by simp [Clean]) h with hb' | hf
            · exact absurd hb' hb
            · rw [hnil, fragments_nil] at hf
              simp at hf
          · obtain ⟨n, rio₁, input₁, hr, hs₁, hc₁, -⟩ := RioReadlineb_line buf hc hs
            rw [bind_apply, hr] at h
            rw [fragments_cons hs, List.mem_cons]
            rcases ih (w := { w with input := input₁ }) hc₁ h with hb' | hf
            · exact .inl (cutLine_crlf.1 hb').symm
            · exact .inr (hs₁ ▸ hf)
  · intro h
    induction hn : (stream rio w.input).length using Nat.strong_induction_on generalizing buf rio w with
    | _ n ih =>
        by_cases hb : buf = crlf
        · exact ⟨1, rio, w, by simp [readhdrsLoop, hb]⟩
        · have hf := h.resolve_left hb
          have hs : stream rio w.input ≠ [] := by
            intro hs
            rw [hs, fragments_nil] at hf
            simp at hf
          obtain ⟨m, rio₁, input₁, hr, hs₁, hc₁, -⟩ := RioReadlineb_line buf hc hs
          rw [fragments_cons hs, List.mem_cons] at hf
          have hlt : (stream rio₁ input₁).length < n := by
            rw [← hn, hs₁]
            exact cutLine_rest_lt hs
          obtain ⟨fuel, rio', w', he⟩ := @ih _ hlt rio₁ { w with input := input₁ }
            (cstr (cutLine (MAXLINE - 1) (stream rio w.input)).1) hc₁
            (hf.imp (fun he => cutLine_crlf.2 he.symm) fun he => hs₁ ▸ he) rfl
          refine ⟨fuel + 1, rio', w', ?_⟩
          rw [readhdrsLoop, if_neg hb, bind_apply, hr]
          exact he

theorem readhdrsLoop_returns {fuel : Nat} {rio : Rio} {w : World} {buf : Bytes}
    (hc : Clean w.input) (h : readhdrsLoop fuel buf rio w ≠ .unfinished) :
    ∃ rio' w', readhdrsLoop fuel buf rio w = .returned rio' w' := by
  induction fuel generalizing buf rio w with
  | zero => exact absurd rfl h
  | succ fuel ih =>
      rw [readhdrsLoop] at h ⊢
      by_cases hb : buf = crlf
      · exact ⟨rio, w, by rw [if_pos hb]; rfl⟩
      · rw [if_neg hb, bind_apply] at h ⊢
        by_cases hs : stream rio w.input = []
        · rw [RioReadlineb_eof buf hc hs] at h ⊢
          exact ih (w := { w with input := [] }) (by simp [Clean]) h
        · obtain ⟨n, rio₁, input₁, hr, -, hc₁, -⟩ := RioReadlineb_line buf hc hs
          rw [hr] at h ⊢
          exact ih (w := { w with input := input₁ }) hc₁ h

theorem requestReadhdrs_returns {fuel : Nat} {stale : Bytes} {rio : Rio} {w : World}
    (hc : Clean w.input) (h : requestReadhdrs fuel stale rio w ≠ .unfinished) :
    ∃ rio' w', requestReadhdrs fuel stale rio w = .returned rio' w' := by
  rw [requestReadhdrs, bind_apply] at h ⊢
  by_cases hs : stream rio w.input = []
  · rw [RioReadlineb_eof stale hc hs] at h ⊢
    exact readhdrsLoop_returns (w := { w with input := [] }) (by simp [Clean]) h
  · obtain ⟨n, rio₁, input₁, hr, -, hc₁, -⟩ := RioReadlineb_line stale hc hs
    rw [hr] at h ⊢
    exact readhdrsLoop_returns (w := { w with input := input₁ }) hc₁ h

theorem requestReadhdrs_ends_iff {stale : Bytes} {rio : Rio} {w : World} (hc : Clean w.input) :
    (∃ fuel rio' w', requestReadhdrs fuel stale rio w = .returned rio' w') ↔
      crlf ∈ fragments (stream rio w.input) ∨ stream rio w.input = [] ∧ stale = crlf := by
  simp only [requestReadhdrs, bind_apply]
  by_cases hs : stream rio w.input = []
  · have hnil : stream ⟨[]⟩ [] = [] := rfl
    rw [RioReadlineb_eof stale hc hs]
    have h := @readhdrsLoop_ends_iff ⟨[]⟩ { w with input := [] } stale (by simp [Clean])
    rw [h, hnil, hs, fragments_nil]
    simp
  · obtain ⟨n, rio₁, input₁, hr, hs₁, hc₁, -⟩ := RioReadlineb_line stale hc hs
    rw [hr]
    have h := @readhdrsLoop_ends_iff rio₁ { w with input := input₁ }
      (cstr (cutLine (MAXLINE - 1) (stream rio w.input)).1) hc₁
    rw [h, hs₁, fragments_cons hs, List.mem_cons, cutLine_crlf, eq_comm]
    simp [hs]

theorem RioReadlineb_input {rio : Rio} {buf : Bytes} {maxlen : Nat} {w w' : World}
    {r : Int × Bytes × Rio} (h : RioReadlineb rio buf maxlen w = .returned r w') :
    ∃ input, w' = { w with input := input } := by
  rw [RioReadlineb] at h
  split at h
  · cases h
    exact ⟨_, rfl⟩
  · cases h
    exact ⟨_, rfl⟩
  · cases h

theorem readhdrsLoop_input {fuel : Nat} {rio rio' : Rio} {buf : Bytes} {w w' : World}
    (h : readhdrsLoop fuel buf rio w = .returned rio' w') :
    ∃ input, w' = { w with input := input } := by
  induction fuel generalizing buf rio w with
  | zero => cases h
  | succ fuel ih =>
      rw [readhdrsLoop] at h
      by_cases hb : buf = crlf
      · rw [if_pos hb] at h
        cases h
        exact ⟨_, rfl⟩
      · rw [if_neg hb] at h
        obtain ⟨⟨n, line, rio₁⟩, w₁, hr, hl⟩ := bind_returned.1 h
        obtain ⟨input₁, rfl⟩ := RioReadlineb_input hr
        exact ih (w := { w with input := input₁ }) hl

theorem requestReadhdrs_input {fuel : Nat} {stale : Bytes} {rio rio' : Rio} {w w' : World}
    (h : requestReadhdrs fuel stale rio w = .returned rio' w') :
    ∃ input, w' = { w with input := input } := by
  obtain ⟨⟨n, line, rio₁⟩, w₁, hr, hl⟩ := bind_returned.1 h
  obtain ⟨input₁, rfl⟩ := RioReadlineb_input hr
  exact readhdrsLoop_input (w := { w with input := input₁ }) hl

variable {arrival dispatch : Timeval} {stats : ThreadsStats} {old : Locals} {buf : Bytes}
  {w : World}

theorem answered_reading {x : Sys ThreadsStats} {input : List ReadAnswer} {reply : Reply} {ok : Prop}
    {counted : ThreadsStats}
    (h : x.Ensures { w with input := input } (fun stats' w' => stats' = counted ∧
      Answered reply stats arrival dispatch { w with input := input } w')
      (Dropped ok { w with input := input })) :
    x.Ensures { w with input := input } (fun stats' w' => stats' = counted ∧
      Answered reply stats arrival dispatch w w') (Dropped ok w) :=
  h.mono (fun _ _ ha => ⟨ha.1, ha.2.sent, ha.2.logged, ha.2.whole⟩) fun _ hd => hd

theorem requestHandle_answered {fuel : Nat} {n : Int} {line : Bytes} {rio : Rio} {w₁ : World}
    (hline : RioReadlineb rioReadinitb buf MAXLINE w = .returned (n, line, rio) w₁) (hn : 0 < n)
    (hhdrs : isGet (sscanf line old) = true →
      ∃ rio' w₂, requestReadhdrs fuel old.hdrs rio w₁ = .returned rio' w₂) :
    (requestHandle fuel buf old arrival dispatch stats).Ensures w
      (fun stats' w' => stats' = (answer w.os (sscanf line old)).count stats ∧
        Answered (answer w.os (sscanf line old)) stats arrival dispatch w w')
      (Dropped ((answer w.os (sscanf line old)).Works w.os) w) := by
  obtain ⟨input₁, rfl⟩ := RioReadlineb_input hline
  rw [requestHandle, ensures_bind, Proc.Ensures, hline]
  dsimp only
  rw [if_neg (by omega)]
  rw [answer]
  rw [isGet] at hhdrs ⊢
  by_cases hget : strcasecmp (sscanf line old).method (str "GET") = true
  · obtain ⟨rio', w₂, hr⟩ := hhdrs hget
    obtain ⟨input₂, rfl⟩ := requestReadhdrs_input hr
    rw [if_pos hget, if_pos hget, ensures_bind, Proc.Ensures, hr]
    have h := @requestGet_answered { w with input := input₂ } arrival dispatch
      (requestParseURI (sscanf line old).uri (sscanf line old)) stats
    exact answered_reading h
  · rw [if_neg hget, if_neg hget]
    by_cases hpost : strcasecmp (sscanf line old).method (str "POST") = true
    · rw [if_pos hpost, if_pos hpost]
      apply (requestServePost_ensures (w := { w with input := input₁ }) id).bind _ fun _ hd => hd
      intro _ w' h
      exact ⟨rfl, h.sent, by simpa [Reply.entries] using h.logged,
        fun hfile => by cases hfile⟩
    · rw [if_neg hpost, if_neg hpost]
      exact answered_reading (error_answered _ _ _ _ stats)

/-- The call of `requestReadhdrs` in `requestHandle` returns after finitely many
calls of `Rio_readlineb`. -/
def HeadersReturn (buf : Bytes) (old : Locals) (w : World) : Prop :=
  ∀ n line rio w₁, RioReadlineb rioReadinitb buf MAXLINE w = .returned (n, line, rio) w₁ → 0 < n →
    isGet (sscanf line old) = true →
      ∃ fuel rio' w', requestReadhdrs fuel old.hdrs rio w₁ = .returned rio' w'

/-- In a stream with a GET an empty line is read after the request line. -/
def HeadersEnd (old : Locals) (s : Bytes) : Prop :=
  s ≠ [] → isGet (sscanf (cstr (cutLine (MAXLINE - 1) s).1) old) = true →
    crlf ∈ fragments (cutLine (MAXLINE - 1) s).2 ∨
      (cutLine (MAXLINE - 1) s).2 = [] ∧ old.hdrs = crlf

theorem request_line (buf : Bytes) (hc : Clean w.input) (hs : received w.input ≠ []) :
    ∃ n rio' input', RioReadlineb rioReadinitb buf MAXLINE w = .returned
        (n, cstr (cutLine (MAXLINE - 1) (received w.input)).1, rio') { w with input := input' } ∧
      stream rio' input' = (cutLine (MAXLINE - 1) (received w.input)).2 ∧ Clean input' ∧ 0 < n :=
  @RioReadlineb_line rioReadinitb w buf hc hs

theorem headersReturn_iff (hc : Clean w.input) :
    HeadersReturn buf old w ↔ HeadersEnd old (received w.input) := by
  rw [HeadersReturn, HeadersEnd]
  by_cases hs : received w.input = []
  · have hr := @RioReadlineb_eof rioReadinitb w buf hc hs
    refine ⟨fun _ h => absurd hs h, fun _ n line rio w₁ h hn => ?_⟩
    rw [hr] at h
    cases h
    exact absurd hn (by decide)
  · obtain ⟨m, rio₁, input₁, hr, hs₁, hc₁, hm⟩ := request_line buf hc hs
    have hends := @requestReadhdrs_ends_iff old.hdrs rio₁ { w with input := input₁ } hc₁
    rw [hs₁] at hends
    constructor
    · intro h _ hget
      exact hends.1 (h _ _ _ _ hr hm hget)
    · intro h n line rio w₁ hr' _ hget
      rw [hr] at hr'
      cases hr'
      exact hends.2 (h hs hget)

theorem requestHandle_finishes_iff (hc : Clean w.input) :
    (∃ fuel, requestHandle fuel buf old arrival dispatch stats w ≠ .unfinished) ↔
      HeadersEnd old (received w.input) := by
  by_cases hs : received w.input = []
  · have hr := @RioReadlineb_eof rioReadinitb w buf hc hs
    refine ⟨fun _ h => absurd hs h, fun _ => ⟨0, ?_⟩⟩
    simp [requestHandle, hr]
  · obtain ⟨m, rio₁, input₁, hr, hs₁, hc₁, hm⟩ := request_line buf hc hs
    have hends := @requestReadhdrs_ends_iff old.hdrs rio₁ { w with input := input₁ } hc₁
    rw [hs₁] at hends
    constructor
    · rintro ⟨fuel, h⟩ _ hget
      refine hends.1 ⟨fuel, requestReadhdrs_returns (w := { w with input := input₁ }) hc₁ fun hu => h ?_⟩
      rw [isGet] at hget
      rw [requestHandle, bind_apply, hr]
      dsimp only
      rw [if_neg (by omega), if_pos hget, bind_apply, hu]
    · intro h
      by_cases hget : isGet (sscanf (cstr (cutLine (MAXLINE - 1) (received w.input)).1) old) = true
      · obtain ⟨fuel, rio', w', hret⟩ := hends.2 (h hs hget)
        exact ⟨fuel, (requestHandle_answered hr hm fun _ => ⟨rio', w', hret⟩).finished⟩
      · exact ⟨0, (requestHandle_answered hr hm fun h => absurd h hget).finished⟩

/-- Reading the headers ends if and only if one of the strings read after the
request line is an empty line, and so does the request. -/
theorem header_reading_ends_iff (hc : Clean w.input) :
    (HeadersReturn buf old w ↔ HeadersEnd old (received w.input)) ∧
      ((∃ fuel, requestHandle fuel buf old arrival dispatch stats w ≠ .unfinished) ↔
        HeadersEnd old (received w.input)) :=
  ⟨headersReturn_iff hc, requestHandle_finishes_iff hc⟩

def client (os : Os) (bytes : Bytes) (hne : bytes ≠ []) (hle : bytes.length ≤ 8192) : World :=
  connection os [.data bytes hne hle] []

def unset : Locals := ⟨[], [], [], [], [], 0, []⟩

theorem headersEnd_crlf {s : Bytes} (hs : (cutLine (MAXLINE - 1) s).2 = crlf) : HeadersEnd old s := by
  have hcut : (cutLine (MAXLINE - 1) crlf).1 = crlf := by decide +kernel
  intro _ _
  rw [hs, fragments_cons (by decide), hcut]
  exact .inl (by simp)

theorem header_reading_ends_iff_emptyLine :
    HeadersReturn [] unset (client .bare (str "GET / HTTP/1.0\r\n\r\n") (by decide) (by decide)) := by
  refine (@header_reading_ends_iff ⟨0, 0⟩ ⟨0, 0⟩ ⟨0, 0, 0, 0, 0⟩ _ _ _ ?_).1.2 (headersEnd_crlf ?_)
  · simp [client, connection, Clean]
  · decide +kernel

/-- The client closes its side behind a header line: the loop never ends. -/
theorem headers_never_end :
    ¬ HeadersReturn [] unset
      (client .bare (str "GET / HTTP/1.0\r\nHost: a\r\n") (by decide) (by decide)) := by
  rw [headersReturn_iff (by simp [client, connection, Clean])]
  intro h
  have hcut : cutLine (MAXLINE - 1) (str "GET / HTTP/1.0\r\nHost: a\r\n") =
      (str "GET / HTTP/1.0\r\n", str "Host: a\r\n") := by decide +kernel
  have hrest : cutLine (MAXLINE - 1) (str "Host: a\r\n") = (str "Host: a\r\n", []) := by
    decide +kernel
  rw [client, connection, received_data, received_nil, List.append_nil, HeadersEnd, hcut] at h
  dsimp only at h
  rw [fragments_cons (by decide), hrest, fragments_nil] at h
  rcases h (by decide) (by decide +kernel) with hf | ⟨hf, -⟩
  · exact absurd hf (by decide +kernel)
  · exact absurd hf (by decide)

end WebServer.HeaderReading
