import WebServer.ClientRequest
import WebServer.Numerals

namespace WebServer.ClientPrint

open Message Process Segel RequestHandle HeaderReading Numerals
open ClientRequest (clientSend)

/-- `sscanf(buf, "Content-Length: %d ", &length)`, where it finds a number. -/
def sscanfLength (buf : Bytes) : Option Int :=
  if str "Content-Length:" <+: buf then scanInt (buf.drop 15) else none

def printHeader (buf : Bytes) : Sys Unit := do
  printf (str "Header: " ++ buf)
  match sscanfLength buf with
  | some length => printf (str "Length = " ++ signed length ++ str "\n")
  | none => pure ()

/-- The loops of `clientPrint`; `n` and `buf` are what `Rio_readlineb` has returned and
left last. -/
def headerLoop : (fuel : Nat) → (n : Int) → (buf : Bytes) → Rio → Sys (Bytes × Rio)
  | 0, _, _, _ => fun _ => .unfinished
  | fuel + 1, n, buf, rio =>
      if buf ≠ crlf ∧ n > 0 then do
        printHeader buf
        let (n, buf, rio) ← RioReadlineb rio buf MAXLINE
        headerLoop fuel n buf rio
      else pure (buf, rio)

def bodyLoop : (fuel : Nat) → (n : Int) → (buf : Bytes) → Rio → Sys Unit
  | 0, _, _, _ => fun _ => .unfinished
  | fuel + 1, n, buf, rio =>
      if n > 0 then do
        printf buf
        let (n, buf, rio) ← RioReadlineb rio buf MAXLINE
        bodyLoop fuel n buf rio
      else pure ()

/-- `stale` is the string that the local buffer happens to hold. -/
def clientPrint (fuel : Nat) (stale : Bytes) : Sys Unit := do
  let (n, buf, rio) ← RioReadlineb rioReadinitb stale MAXLINE
  let (buf, rio) ← headerLoop fuel n buf rio
  let (n, buf, rio) ← RioReadlineb rio buf MAXLINE
  bodyLoop fuel n buf rio

/-- `main` of the client, where `connect` is what `Open_clientfd` makes of a host and a
port. Without a connection it does not return. -/
def main (fuel : Nat) (stale : Bytes) (gethostname : Option Bytes)
    (connect : Bytes → Int → Option Nat) (argv : List Bytes) : Sys Unit :=
  match argv with
  | [_, host, port, filename, method] =>
      match connect host (atoi port) with
      | none => unixError
      | some clientfd => do
        printf (str "Connected to server. clientfd = " ++ decimal clientfd ++ str "\n")
        clientSend gethostname filename method
        clientPrint fuel stale
        Close
  | _ => unixError

def shown (buf : Bytes) : Bytes :=
  str "Header: " ++ buf ++
    match sscanfLength buf with
    | some length => str "Length = " ++ signed length ++ str "\n"
    | none => []

def isHeader (line : Bytes) : Bool := decide (line ≠ crlf)

/-- The lines of the answer are headers up to the empty one. Of each line the part
before the first NUL is printed. -/
def printed (lines : List Bytes) : Bytes :=
  (lines.takeWhile isHeader).flatMap (fun l => shown (cstr l)) ++
    (lines.dropWhile isHeader).tail.flatMap cstr

structure Prints (text : Bytes) (w w' : World) : Prop where
  stdout : w'.stdout = w.stdout ++ text
  os : w'.os = w.os
  sent : w'.sent = w.sent
  clean : Clean w'.input

variable {w w₁ w₂ : World} {text text' s : Bytes} {rio : Rio} {fuel : Nat} {n : Int} {buf : Bytes}

theorem Prints.trans (h : Prints text w w₁) (h' : Prints text' w₁ w₂) :
    Prints (text ++ text') w w₂ where
  stdout := by rw [h'.stdout, h.stdout, List.append_assoc]
  os := h'.os.trans h.os
  sent := h'.sent.trans h.sent
  clean := h'.clean

theorem printHeader_returned (w : World) (buf : Bytes) :
    printHeader buf w = .returned () { w with stdout := w.stdout ++ shown buf } := by
  rw [printHeader, shown, bind_apply]
  cases sscanfLength buf <;> simp [printf]

theorem readline_returned (hc : Clean w.input) (hs : stream rio w.input = s) (buf : Bytes) :
    ∃ rio' input', Clean input' ∧
      ((s = [] ∧ stream rio' input' = [] ∧
        RioReadlineb rio buf MAXLINE w = .returned (0, buf, rio') { w with input := input' }) ∨
      ∃ l ls, fragments s = l :: ls ∧ fragments (stream rio' input') = ls ∧
        (cstr l = crlf ↔ l = crlf) ∧ (lineCount l : Int) > 0 ∧
        RioReadlineb rio buf MAXLINE w =
          .returned (lineCount l, cstr l, rio') { w with input := input' }) := by
  subst hs
  by_cases hs : stream rio w.input = []
  · exact ⟨⟨[]⟩, [], by simp [Clean], .inl ⟨hs, rfl, RioReadlineb_eof buf hc hs⟩⟩
  · obtain ⟨rio', input', hr, hs', hc'⟩ := RioReadlineb_cut buf hc hs
    exact ⟨rio', input', hc', .inr ⟨_, _, fragments_cons hs, by rw [hs'], cutLine_crlf,
      Int.natCast_pos.2 (lineCount_pos _), hr⟩⟩

theorem bodyLoop_prints (hc : Clean w.input) (hn : n > 0)
    (hfuel : (fragments (stream rio w.input)).length + 1 < fuel) :
    ∃ w', bodyLoop fuel n buf rio w = .returned () w' ∧
      Prints (buf ++ (fragments (stream rio w.input)).flatMap cstr) w w' := by
  induction fuel generalizing n buf rio w with
  | zero => omega
  | succ fuel ih =>
      obtain ⟨rio', input', hc', ⟨hs, -, hr⟩ | ⟨l, ls, hl, hls, -, hpos, hr⟩⟩ :=
        @readline_returned { w with stdout := w.stdout ++ buf } _ rio hc rfl buf
      · obtain ⟨fuel, rfl⟩ : ∃ k, fuel = k + 1 := ⟨fuel - 1, by omega⟩
        refine ⟨{ w with stdout := w.stdout ++ buf, input := input' }, ?_, ?_⟩
        · rw [bodyLoop, if_pos hn, bind_apply, printf]
          dsimp only
          rw [bind_apply, hr]
          rfl
        · have hs : stream rio w.input = [] := hs
          rw [hs, fragments_nil, List.flatMap_nil, List.append_nil]
          exact ⟨rfl, rfl, rfl, hc'⟩
      · have hl : fragments (stream rio w.input) = l :: ls := hl
        obtain ⟨w', hw', hp⟩ := @ih { w with stdout := w.stdout ++ buf, input := input' } rio' _
          (cstr l) hc' hpos (by rw [hls]; rw [hl, List.length_cons] at hfuel; omega)
        refine ⟨w', ?_, ?_⟩
        · rw [bodyLoop, if_pos hn, bind_apply, printf]
          dsimp only
          rw [bind_apply, hr]
          exact hw'
        · have hprints : Prints buf w { w with stdout := w.stdout ++ buf, input := input' } :=
            ⟨rfl, rfl, rfl, hc'⟩
          have hall := hprints.trans hp
          rwa [hls, ← List.flatMap_cons, ← hl] at hall

theorem headerLoop_prints {l : Bytes} (hc : Clean w.input) (hn : n > 0)
    (hl : cstr l = crlf ↔ l = crlf) (hfuel : (fragments (stream rio w.input)).length + 1 < fuel) :
    ∃ buf' rio' w', headerLoop fuel n (cstr l) rio w = .returned (buf', rio') w' ∧
      Prints (((l :: fragments (stream rio w.input)).takeWhile isHeader).flatMap
        fun l => shown (cstr l)) w w' ∧
      fragments (stream rio' w'.input) =
        ((l :: fragments (stream rio w.input)).dropWhile isHeader).tail := by
  induction fuel generalizing n l rio w with
  | zero => omega
  | succ fuel ih =>
      by_cases hempty : l = crlf
      · refine ⟨cstr l, rio, w, ?_, ?_, ?_⟩
        · rw [headerLoop, if_neg fun h => h.1 (hl.2 hempty)]
          rfl
        · rw [List.takeWhile_cons_of_neg (by simp [isHeader, hempty])]
          exact ⟨(List.append_nil _).symm, rfl, rfl, hc⟩
        · rw [List.dropWhile_cons_of_neg (by simp [isHeader, hempty]), List.tail_cons]
      · have hgo : cstr l ≠ crlf ∧ n > 0 := ⟨fun h => hempty (hl.1 h), hn⟩
        have hheader : isHeader l = true := by simp [isHeader, hempty]
        rw [List.takeWhile_cons_of_pos hheader, List.dropWhile_cons_of_pos hheader,
          List.flatMap_cons]
        obtain ⟨rio', input', hc', ⟨hs, hs', hr⟩ | ⟨l', ls, hl', hls, hcrlf, hpos, hr⟩⟩ :=
          @readline_returned { w with stdout := w.stdout ++ shown (cstr l) } _ rio hc rfl (cstr l)
        · obtain ⟨fuel, rfl⟩ : ∃ k, fuel = k + 1 := ⟨fuel - 1, by omega⟩
          have hs : stream rio w.input = [] := hs
          rw [hs, fragments_nil]
          refine ⟨cstr l, rio',
            { w with stdout := w.stdout ++ shown (cstr l), input := input' }, ?_, ?_, ?_⟩
          · rw [headerLoop, if_pos hgo, bind_apply, printHeader_returned]
            dsimp only
            rw [bind_apply, hr]
            dsimp only
            rw [headerLoop, if_neg fun h => absurd h.2 (lt_irrefl _)]
            rfl
          · exact ⟨by simp, rfl, rfl, hc'⟩
          · dsimp only
            rw [hs', fragments_nil]
            rfl
        · have hl' : fragments (stream rio w.input) = l' :: ls := hl'
          obtain ⟨buf', rio₂, w', hw', hp, hrest⟩ :=
            @ih { w with stdout := w.stdout ++ shown (cstr l), input := input' } rio' _ l' hc' hpos
              hcrlf (by rw [hls]; rw [hl', List.length_cons] at hfuel; omega)
          refine ⟨buf', rio₂, w', ?_, ?_, ?_⟩
          · rw [headerLoop, if_pos hgo, bind_apply, printHeader_returned]
            dsimp only
            rw [bind_apply, hr]
            exact hw'
          · have hprints : Prints (shown (cstr l)) w
                { w with stdout := w.stdout ++ shown (cstr l), input := input' } :=
              ⟨rfl, rfl, rfl, hc'⟩
            rw [hl', ← hls]
            exact hprints.trans hp
          · rw [hl', ← hls]
            exact hrest

theorem body_prints (hc : Clean w.input) (buf : Bytes)
    (hfuel : (fragments (stream rio w.input)).length < fuel) : ∃ w', (do
      let (n, buf, rio) ← RioReadlineb rio buf MAXLINE
      bodyLoop fuel n buf rio : Sys Unit) w = .returned () w' ∧
        Prints ((fragments (stream rio w.input)).flatMap cstr) w w' := by
  obtain ⟨fuel, rfl⟩ : ∃ k, fuel = k + 1 := ⟨fuel - 1, by omega⟩
  obtain ⟨rio', input', hc', ⟨hs, -, hr⟩ | ⟨l, ls, hl, hls, -, hpos, hr⟩⟩ :=
    readline_returned hc rfl buf
  · refine ⟨{ w with input := input' }, ?_, ?_⟩
    · rw [bind_apply, hr]
      rfl
    · rw [hs, fragments_nil]
      exact ⟨(List.append_nil _).symm, rfl, rfl, hc'⟩
  · obtain ⟨w', hw', hp⟩ := @bodyLoop_prints { w with input := input' } rio' (fuel + 1) _ (cstr l)
      hc' hpos (by rw [hls]; rw [hl, List.length_cons] at hfuel; omega)
    refine ⟨w', ?_, ?_⟩
    · rw [bind_apply, hr]
      exact hw'
    · rw [hls, ← List.flatMap_cons, ← hl] at hp
      exact ⟨hp.stdout, hp.os, hp.sent, hp.clean⟩

/-- The client reads every answer up to its end, wherever it ends, and prints it. -/
theorem client_prints (hc : Clean w.input) (stale : Bytes)
    (hfuel : (fragments (received w.input)).length + 2 ≤ fuel) :
    ∃ w', clientPrint fuel stale w = .returned () w' ∧
      Prints (printed (fragments (received w.input))) w w' := by
  obtain ⟨rio, input, hc', ⟨hs, hs', hr⟩ | ⟨l, ls, hl, hls, hcrlf, hpos, hr⟩⟩ :=
    @readline_returned w _ rioReadinitb hc rfl stale
  · have hs : received w.input = [] := hs
    obtain ⟨fuel, rfl⟩ : ∃ k, fuel = k + 1 := ⟨fuel - 1, by omega⟩
    obtain ⟨w', hw', hp⟩ := @body_prints { w with input := input } rio (fuel + 1) hc' stale
      (by rw [hs', fragments_nil]; exact Nat.succ_pos fuel)
    refine ⟨w', ?_, ?_⟩
    · rw [clientPrint, bind_apply, hr]
      dsimp only
      rw [bind_apply, headerLoop, if_neg fun h => absurd h.2 (lt_irrefl _)]
      exact hw'
    · rw [hs, fragments_nil]
      rw [hs', fragments_nil] at hp
      exact ⟨hp.stdout, hp.os, hp.sent, hp.clean⟩
  · have hl : fragments (received w.input) = l :: ls := hl
    rw [hl, List.length_cons] at hfuel
    obtain ⟨buf, rio₁, w₁, hw₁, hp₁, hrest⟩ :=
      @headerLoop_prints { w with input := input } rio fuel _ l hc' hpos hcrlf (by rw [hls]; omega)
    rw [hls] at hp₁ hrest
    have hshort : (fragments (stream rio₁ w₁.input)).length < fuel := by
      have hdrop := (List.dropWhile_sublist (l := l :: ls) isHeader).length_le
      rw [hrest, List.length_tail]
      rw [List.length_cons] at hdrop
      omega
    obtain ⟨w', hw', hp⟩ := body_prints hp₁.clean buf hshort
    refine ⟨w', ?_, ?_⟩
    · rw [clientPrint, bind_apply, hr]
      dsimp only
      rw [bind_apply, hw₁]
      exact hw'
    · rw [hrest] at hp
      have hall := hp₁.trans hp
      rw [printed, hl]
      exact ⟨hall.stdout, hall.os, hall.sent, hall.clean⟩

end WebServer.ClientPrint
