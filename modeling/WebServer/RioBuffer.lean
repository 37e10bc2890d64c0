import WebServer.HeaderReading
import WebServer.RequestCalls

namespace WebServer.RioBuffer

open Message Process HeaderReading
open Answers (isGet)
open RequestCalls (Call Calls)
open RequestHandle (Locals sscanf strcasecmp)
open RequestQueue (Timeval ThreadsStats)
open Segel (MAXLINE ReadAnswer LineResult Rio World)

variable {rp : RioT} {input input' : List ReadAnswer} {buf : Bytes} {n : Nat}

/-- `rio_t`: the number of unread bytes, or what `read` has returned instead, and where in
`rio_buf` these bytes begin. -/
structure RioT where
  cnt : Int
  bufptr : Nat
  buf : Bytes

def rioReadinitb (buf : Bytes) : RioT := ⟨0, 0, buf⟩

/-- The loop of `rio_read`, and what it returns in the middle of it. A `read` overwrites
the front of `rio_buf`. -/
def refill (rp : RioT) : List ReadAnswer → Option Int × RioT × List ReadAnswer
  | [] => if rp.cnt ≤ 0 then (some 0, { rp with cnt := 0 }, []) else (none, rp, [])
  | a :: input =>
      if rp.cnt ≤ 0 then
        match a with
        | .data bs _ _ => refill ⟨bs.length, 0, bs ++ rp.buf.drop bs.length⟩ input
        | .eintr => refill { rp with cnt := -1 } input
        | .failed => (some (-1), { rp with cnt := -1 }, input)
      else (none, rp, a :: input)

/-- `rio_read`: its return value, and the bytes copied to `usrbuf`. -/
def rioRead (rp : RioT) (n : Nat) (input : List ReadAnswer) :
    Int × Bytes × RioT × List ReadAnswer :=
  match refill rp input with
  | (some rc, rp, input) => (rc, [], rp, input)
  | (none, rp, input) =>
      let cnt : Int := if rp.cnt < n then rp.cnt else n
      (cnt, (rp.buf.drop rp.bufptr).take cnt.toNat,
        ⟨rp.cnt - cnt, rp.bufptr + cnt.toNat, rp.buf⟩, input)

/-- The loop of `rio_readlineb` with `k` iterations to go: its return value, and the
string that it has terminated. -/
def readLoop : (k n : Nat) → (acc : Bytes) → RioT → List ReadAnswer →
    Int × Option Bytes × RioT × List ReadAnswer
  | 0, n, acc, rp, input => (n, some acc, rp, input)
  | k + 1, n, acc, rp, input =>
      let r := rioRead rp 1 input
      if r.1 = 1 then
        let c := r.2.1.headD 0
        if c = 10 then (n, some (acc ++ [c]), r.2.2)
        else readLoop k (n + 1) (acc ++ [c]) r.2.2.1 r.2.2.2
      else if r.1 = 0 then
        if n = 1 then (0, none, r.2.2) else (n, some acc, r.2.2)
      else (-1, none, r.2.2)

def rioReadlineb (rp : RioT) (maxlen : Nat) (input : List ReadAnswer) :
    Int × Option Bytes × RioT × List ReadAnswer :=
  readLoop (maxlen - 1) 1 [] rp input

/-- `Rio_readlineb` on a buffer that holds the string `buf`; nothing where the process
exits. -/
def RioReadlineb (rp : RioT) (buf : Bytes) (maxlen : Nat) (input : List ReadAnswer) :
    Option (Int × Bytes × RioT × List ReadAnswer) :=
  let r := rioReadlineb rp maxlen input
  if r.1 < 0 then none else some (r.1, (r.2.1.map cstr).getD buf, r.2.2)

def abs (rp : RioT) : Rio := ⟨(rp.buf.drop rp.bufptr).take rp.cnt.toNat⟩

structure Inv (rp : RioT) : Prop where
  size : rp.buf.length = 8192
  inside : rp.bufptr + rp.cnt.toNat ≤ 8192

theorem readinitb_inv (hbuf : buf.length = 8192) : Inv (rioReadinitb buf) :=
  ⟨hbuf, by simp [rioReadinitb]⟩

theorem abs_nonpos (h : rp.cnt ≤ 0) : abs rp = ⟨[]⟩ := by
  rw [abs, Int.toNat_of_nonpos h, List.take_zero]

theorem Inv.unread (h : Inv rp) : (abs rp).unread.length = rp.cnt.toNat := by
  have hsize := h.size
  have hinside := h.inside
  rw [abs, List.length_take, List.length_drop]
  omega

theorem read_inv (h : Inv rp) {bs : Bytes} (hfits : bs.length ≤ 8192) :
    Inv ⟨bs.length, 0, bs ++ rp.buf.drop bs.length⟩ := by
  have hsize := h.size
  refine ⟨?_, by simpa using hfits⟩
  rw [List.length_append, List.length_drop]
  omega

theorem abs_read (rp : RioT) (bs : Bytes) :
    abs ⟨bs.length, 0, bs ++ rp.buf.drop bs.length⟩ = ⟨bs⟩ := by
  simp [abs]

inductive Refilled (n : Nat) (rp : RioT) (input : List ReadAnswer) :
    Option Int × RioT × List ReadAnswer → Prop
  | some {rp' input'} (inv : Inv rp') (unread : 0 < rp'.cnt)
      (same : Segel.rioRead n (abs rp) input = Segel.rioRead n (abs rp') input') :
      Refilled n rp input (none, rp', input')
  | eof {rp' input'} (inv : Inv rp')
      (same : Segel.rioRead n (abs rp) input = (.eof, abs rp', input')) :
      Refilled n rp input (some 0, rp', input')
  | error {rp' input'} (inv : Inv rp')
      (same : Segel.rioRead n (abs rp) input = (.error, abs rp', input')) :
      Refilled n rp input (some (-1), rp', input')

theorem Refilled.of {rp' : RioT} {r : Option Int × RioT × List ReadAnswer}
    (h : Refilled n rp' input' r)
    (hsame : Segel.rioRead n (abs rp) input = Segel.rioRead n (abs rp') input') :
    Refilled n rp input r := by
  cases h with
  | some inv unread same => exact .some inv unread (hsame.trans same)
  | eof inv same => exact .eof inv (hsame.trans same)
  | error inv same => exact .error inv (hsame.trans same)

theorem refill_refines (n : Nat) (h : Inv rp) (input : List ReadAnswer) :
    Refilled n rp input (refill rp input) := by
  induction input generalizing rp with
  | nil =>
      rw [refill]
      split
      · next hcnt =>
        refine .eof ⟨h.size, ?_⟩ ?_
        · have hinside := h.inside
          simp only [Int.toNat_zero]
          omega
        · rw [abs_nonpos hcnt, @abs_nonpos { rp with cnt := 0 } le_rfl]
          rfl
      · next hcnt => exact .some h (not_le.1 hcnt) rfl
  | cons a input ih =>
      by_cases hcnt : rp.cnt ≤ 0
      · have hminus : Inv { rp with cnt := -1 } := by
          have hinside := h.inside
          exact ⟨h.size, by simp only [Int.reduceNeg, Int.reduceToNat]; omega⟩
        have hnil : abs { rp with cnt := -1 } = ⟨[]⟩ := abs_nonpos (by simp)
        cases a with
        | data bs hne hfits =>
            rw [refill, if_pos hcnt]
            refine (ih (read_inv h hfits)).of ?_
            rw [abs_nonpos hcnt, abs_read, Segel.rioRead]
        | eintr =>
            rw [refill, if_pos hcnt]
            refine (ih hminus).of ?_
            rw [abs_nonpos hcnt, hnil, Segel.rioRead]
        | failed =>
            rw [refill, if_pos hcnt]
            refine .error hminus ?_
            rw [abs_nonpos hcnt, hnil, Segel.rioRead]
      · have hstop : refill rp (a :: input) = (none, rp, a :: input) := by
          cases a <;> rw [refill, if_neg hcnt]
        rw [hstop]
        exact .some h (not_le.1 hcnt) rfl

theorem copy_refines (h : Inv rp) (hcnt : 0 < rp.cnt) {n : Nat} (hn : 0 < n) {cnt : Int}
    (hmin : cnt = if rp.cnt < n then rp.cnt else (n : Int)) :
    0 < cnt ∧ cnt = ((rp.buf.drop rp.bufptr).take cnt.toNat).length ∧
      Inv ⟨rp.cnt - cnt, rp.bufptr + cnt.toNat, rp.buf⟩ ∧
      Segel.rioRead n (abs rp) input = (.got ((rp.buf.drop rp.bufptr).take cnt.toNat),
        abs ⟨rp.cnt - cnt, rp.bufptr + cnt.toNat, rp.buf⟩, input) := by
  have hsize := h.size
  have hinside := h.inside
  obtain ⟨hpos, hle, htake⟩ : 0 < cnt ∧ cnt ≤ rp.cnt ∧ (cnt = n ∨ cnt = rp.cnt ∧ rp.cnt < n) := by
    split at hmin <;> omega
  obtain ⟨b, bs, hbs⟩ : ∃ b bs, (abs rp).unread = b :: bs := by
    apply List.exists_cons_of_length_pos
    rw [h.unread]
    omega
  have habs : abs rp = ⟨b :: bs⟩ := congrArg Rio.mk hbs
  refine ⟨hpos, ?_, ⟨hsize, ?_⟩, ?_⟩
  · rw [List.length_take, List.length_drop]
    omega
  · simp only
    omega
  · rw [habs, Segel.rioRead, ← hbs]
    have hlen := h.unread
    have hgot : (abs rp).unread.take n = (rp.buf.drop rp.bufptr).take cnt.toNat := by
      rw [abs, List.take_take]
      congr 1
      omega
    have hrest : (abs rp).unread.drop n =
        ((rp.buf.drop (rp.bufptr + cnt.toNat)).take (rp.cnt - cnt).toNat) := by
      rcases htake with hn' | ⟨hall, hlt⟩
      · rw [abs, List.drop_take, List.drop_drop]
        congr 2 <;> omega
      · rw [List.drop_eq_nil_of_le (by omega), hall]
        simp
    rw [hgot, hrest, abs]

inductive Returned (n : Nat) : Segel.ReadResult × Rio × List ReadAnswer →
    Int × Bytes × RioT × List ReadAnswer → Prop
  | got {rc : Int} {bytes rp' input'} (inv : Inv rp') (pos : 0 < rc) (le : rc ≤ n)
      (count : rc = bytes.length) :
      Returned n (.got bytes, abs rp', input') (rc, bytes, rp', input')
  | eof {rp' input'} (inv : Inv rp') : Returned n (.eof, abs rp', input') (0, [], rp', input')
  | error {rp' input'} (inv : Inv rp') : Returned n (.error, abs rp', input') (-1, [], rp', input')

theorem rioRead_refines (h : Inv rp) (hn : 0 < n) (input : List ReadAnswer) :
    Returned n (Segel.rioRead n (abs rp) input) (rioRead rp n input) := by
  have href := refill_refines n h input
  rw [rioRead]
  cases hr : refill rp input with
  | mk rc rest =>
      obtain ⟨rp', input'⟩ := rest
      rw [hr] at href
      cases href with
      | some inv unread same =>
          obtain ⟨hpos, hcount, hinv, hcopy⟩ := @copy_refines rp' input' inv unread n hn _ rfl
          rw [same.trans hcopy]
          refine .got hinv hpos ?_ hcount
          split <;> omega
      | eof inv same =>
          rw [same]
          exact .eof inv
      | error inv same =>
          rw [same]
          exact .error inv

inductive Ended : LineResult × Rio × List ReadAnswer →
    Int × Option Bytes × RioT × List ReadAnswer → Prop
  | line {m bs rp' input'} (inv : Inv rp') :
      Ended (.line m bs, abs rp', input') (m, some bs, rp', input')
  | eof {rp' input'} (inv : Inv rp') : Ended (.eof, abs rp', input') (0, none, rp', input')
  | error {rp' input'} (inv : Inv rp') : Ended (.error, abs rp', input') (-1, none, rp', input')

theorem readLoop_refines (k n : Nat) (acc : Bytes) (h : Inv rp) (input : List ReadAnswer) :
    Ended (Segel.readLoop k n acc (abs rp) input) (readLoop k n acc rp input) := by
  induction k generalizing n acc rp input with
  | zero => exact .line h
  | succ k ih =>
      have hread := rioRead_refines h Nat.one_pos input
      rw [Segel.readLoop, readLoop]
      generalize Segel.rioRead 1 (abs rp) input = r at hread
      generalize rioRead rp 1 input = r' at hread
      cases hread with
      | got inv pos le count =>
          rename_i rc bytes rp' input'
          obtain rfl : rc = 1 := by omega
          obtain ⟨c, rfl⟩ : ∃ c, bytes = [c] := List.length_eq_one_iff.1 (by omega)
          show Ended (if c = 10 then (.line n (acc ++ [c]), abs rp', input')
              else Segel.readLoop k (n + 1) (acc ++ [c]) (abs rp') input')
            (if c = 10 then (n, some (acc ++ [c]), rp', input')
              else readLoop k (n + 1) (acc ++ [c]) rp' input')
          by_cases hc : c = 10
          · rw [if_pos hc, if_pos hc]
            exact .line inv
          · rw [if_neg hc, if_neg hc]
            exact ih (n + 1) _ inv input'
      | eof inv =>
          simp only [zero_ne_one, if_false, if_true]
          split
          · exact .eof inv
          · exact .line inv
      | error inv => exact .error inv

/-- The functions on the buffer do what those on the unread bytes do. -/
theorem RioReadlineb_refines (h : Inv rp) (buf : Bytes) (maxlen : Nat) (w : World) :
    match RioReadlineb rp buf maxlen w.input with
    | some (n, line, rp', input) => Inv rp' ∧
        Segel.RioReadlineb (abs rp) buf maxlen w = .returned (n, line, abs rp') { w with input := input }
    | none => ∃ input, Segel.RioReadlineb (abs rp) buf maxlen w = .exited { w with input := input } := by
  have hloop := readLoop_refines (maxlen - 1) 1 [] h w.input
  rw [RioReadlineb, Segel.RioReadlineb, rioReadlineb, Segel.rioReadlineb]
  generalize Segel.readLoop (maxlen - 1) 1 [] (abs rp) w.input = r at hloop
  generalize readLoop (maxlen - 1) 1 [] rp w.input = r' at hloop
  cases hloop with
  | line inv =>
      rw [if_neg (by simp)]
      exact ⟨inv, rfl⟩
  | eof inv => exact ⟨inv, rfl⟩
  | error inv => exact ⟨_, rfl⟩

/-- What the calls of `Rio_readlineb` in a program return and leave in its buffer, where
`answers` are those of the other calls. -/
def lineCalls {α : Type} (answers : (c : Call) → c.Answer) :
    Calls α → RioT → List ReadAnswer → List (Int × Bytes)
  | .ret _, _, _ => []
  | .stuck, _, _ => []
  | .call (.rioReadlineb _ usrbuf maxlen) k, rp, input =>
      match RioReadlineb rp usrbuf maxlen input with
      | none => []
      | some (n, line, rp, input) => (n, line) :: lineCalls answers (k (n, line, abs rp)) rp input
  | .call c k, rp, input => lineCalls answers (k (answers c)) rp input

def nextLine (buf : Bytes) : List Bytes → Int × Bytes
  | [] => (0, buf)
  | l :: _ => (lineCount l, cstr l)

def readhdrsLines : (fuel : Nat) → (buf : Bytes) → List Bytes → List (Int × Bytes)
  | 0, _, _ => []
  | fuel + 1, buf, lines =>
      if buf = crlf then []
      else nextLine buf lines :: readhdrsLines fuel (nextLine buf lines).2 lines.tail

def headerLines (fuel : Nat) (stale : Bytes) (lines : List Bytes) : List (Int × Bytes) :=
  nextLine stale lines :: readhdrsLines fuel (nextLine stale lines).2 lines.tail

def handleLines (fuel : Nat) (buf : Bytes) (old : Locals) (lines : List Bytes) : List (Int × Bytes) :=
  nextLine buf lines ::
    if 0 < (nextLine buf lines).1 ∧ isGet (sscanf (nextLine buf lines).2 old) then
      headerLines fuel old.hdrs lines.tail
    else []

section

variable {α β : Type} {x : Calls α}

def writing : Protocol Call Call.Answer Unit where
  allows _ c :=
    match c with
    | .rioReadlineb _ _ _ => False
    | _ => True
  next _ _ _ := ()

def Writes (x : Calls α) : Prop := x.Follows writing (fun _ _ => True) ()

theorem Writes.lineCalls (h : Writes x) (answers : (c : Call) → c.Answer) (rp : RioT)
    (input : List ReadAnswer) : lineCalls answers x rp input = [] := by
  induction x with
  | ret a => rfl
  | stuck => rfl
  | call c k ih =>
      obtain ⟨hc, hk⟩ := h
      cases c with
      | rioReadlineb rio usrbuf maxlen => exact hc.elim
      | _ => exact ih _ (hk _)

theorem Writes.bind {f : α → Calls β} (h : Writes x) (hf : ∀ a, Writes (f a)) : Writes (x >>= f) :=
  Prog.Follows.bind h fun a _ _ => hf a

theorem asks_writes {c : Call} (hc : writing.allows () c) : Writes (.ask c) := ⟨hc, fun _ => trivial⟩

variable (bs cause errnum shortmsg longmsg filename cgiargs : Bytes) (arrival dispatch : Timeval)
  (stats : ThreadsStats)

theorem returns_writes (a : α) : Writes (pure a : Calls α) := trivial

theorem sends_writes (n : Nat) : Writes (RequestCalls.RioWriten bs n) := asks_writes trivial

theorem prints_writes : Writes (RequestCalls.printf bs) := asks_writes trivial

theorem closes_writes (fd : Int) : Writes (RequestCalls.Close fd) := asks_writes trivial

theorem logs_writes (n : Int) : Writes (RequestCalls.addToLog bs n) := asks_writes trivial

theorem requestError_writes :
    Writes (RequestCalls.requestError cause errnum shortmsg longmsg arrival dispatch stats) := by
  rw [RequestCalls.requestError]
  dsimp only
  refine (sends_writes _ _).bind fun _ => ?_
  refine (prints_writes _).bind fun _ => ?_
  refine (sends_writes _ _).bind fun _ => ?_
  refine (prints_writes _).bind fun _ => ?_
  refine (sends_writes _ _).bind fun _ => ?_
  refine (prints_writes _).bind fun _ => ?_
  refine (sends_writes _ _).bind fun _ => ?_
  exact prints_writes _

theorem refuses_writes :
    Writes (do
      RequestCalls.requestError cause errnum shortmsg longmsg arrival dispatch stats
      return stats) :=
  (requestError_writes _ _ _ _ _ _ _).bind fun _ => returns_writes _

theorem requestServeDynamic_writes :
    Writes (RequestCalls.requestServeDynamic filename cgiargs arrival dispatch stats) := by
  rw [RequestCalls.requestServeDynamic]
  refine (sends_writes _ _).bind fun _ => ?_
  exact (asks_writes (c := .fork cgiargs filename) trivial).bind fun pid =>
    asks_writes (c := .waitPid pid) trivial

theorem requestServeStatic_writes (filesize : Int) :
    Writes (RequestCalls.requestServeStatic filename filesize arrival dispatch stats) := by
  rw [RequestCalls.requestServeStatic]
  refine (asks_writes (c := .openFile filename) trivial).bind fun srcfd => ?_
  change Int at srcfd
  split
  · exact refuses_writes _ _ _ _ _ _ _
  split
  · exact (closes_writes _).bind fun _ => refuses_writes _ _ _ _ _ _ _
  refine (asks_writes (c := .mmap filesize srcfd) trivial).bind fun srcp => ?_
  cases srcp with
  | none => exact (closes_writes _).bind fun _ => refuses_writes _ _ _ _ _ _ _
  | some srcp =>
      refine (closes_writes _).bind fun _ => ?_
      refine (sends_writes _ _).bind fun _ => ?_
      refine (sends_writes _ _).bind fun _ => ?_
      exact (asks_writes (c := .munmap) trivial).bind fun _ => returns_writes _

theorem requestServePost_writes : Writes (RequestCalls.requestServePost arrival dispatch stats) := by
  rw [RequestCalls.requestServePost]
  refine (asks_writes (c := .getLog) trivial).bind fun r => ?_
  exact (sends_writes _ _).bind fun _ => sends_writes _ _

theorem requestGet_writes (target : RequestHandle.Target) :
    Writes (RequestCalls.requestGet target arrival dispatch stats) := by
  rw [RequestCalls.requestGet]
  refine (asks_writes (c := .stat target.filename) trivial).bind fun found => ?_
  cases found with
  | none => exact refuses_writes _ _ _ _ _ _ _
  | some sbuf =>
      dsimp only
      split
      · split
        · exact refuses_writes _ _ _ _ _ _ _
        · exact (requestServeStatic_writes _ _ _ _ _).bind fun _ =>
            (logs_writes _ _).bind fun _ => returns_writes _
      · split
        · exact refuses_writes _ _ _ _ _ _ _
        · exact (requestServeDynamic_writes _ _ _ _ _).bind fun _ =>
            (logs_writes _ _).bind fun _ => returns_writes _

end

theorem rioReadlineb_next (h : Inv rp) (hc : Clean input) :
    ∃ rp' input', rioReadlineb rp MAXLINE input =
        ((nextLine [] (fragments (stream (abs rp) input))).1,
          (fragments (stream (abs rp) input)).head?, rp', input') ∧
      Inv rp' ∧ Clean input' ∧
      fragments (stream (abs rp') input') = (fragments (stream (abs rp) input)).tail ∧
      (fragments (stream (abs rp) input)).head?.getD [] ++ stream (abs rp') input' =
        stream (abs rp) input := by
  have hloop := readLoop_refines (MAXLINE - 1) 1 [] h input
  rw [rioReadlineb]
  generalize hr : Segel.readLoop (MAXLINE - 1) 1 [] (abs rp) input = r at hloop
  generalize readLoop (MAXLINE - 1) 1 [] rp input = r' at hloop
  by_cases hs : stream (abs rp) input = []
  · have heof := hr.symm.trans (@readLoop_eof (MAXLINE - 2) (abs rp) input hc hs)
    rw [hs, fragments_nil]
    cases hloop with
    | @eof rp' input' inv =>
        obtain ⟨habs, rfl⟩ := Prod.mk.inj (Prod.mk.inj heof).2
        refine ⟨rp', [], rfl, inv, by simp [Clean], ?_, ?_⟩ <;> rw [habs]
        · exact fragments_nil
        · rfl
    | line => cases (Prod.mk.inj heof).1
    | error => cases (Prod.mk.inj heof).1
  · obtain ⟨rio', input', hcut, hrest, hc'⟩ :=
      @readLoop_cut (MAXLINE - 1) 1 [] _ (abs rp) input hc rfl Nat.one_pos (.inr hs)
    have hline := hr.symm.trans hcut
    rw [fragments_cons hs]
    cases hloop with
    | @line m bs rp' input' inv =>
        obtain ⟨hm, habs⟩ := Prod.mk.inj hline
        obtain ⟨rfl, rfl⟩ := Prod.mk.inj habs
        obtain ⟨rfl, rfl⟩ := LineResult.line.inj hm
        refine ⟨rp', input', ?_, inv, hc', by rw [hrest, List.tail_cons], ?_⟩
        · rw [Nat.add_sub_cancel_left]
          rfl
        · rw [hrest]
          exact cutLine_append _ _
    | eof => cases (Prod.mk.inj hline).1
    | error => cases (Prod.mk.inj hline).1

theorem RioReadlineb_nextLine (h : Inv rp) (hc : Clean input) (buf : Bytes) :
    ∃ rp' input', RioReadlineb rp buf MAXLINE input =
        some ((nextLine buf (fragments (stream (abs rp) input))).1,
          (nextLine buf (fragments (stream (abs rp) input))).2, rp', input') ∧
      Inv rp' ∧ Clean input' ∧
      fragments (stream (abs rp') input') = (fragments (stream (abs rp) input)).tail := by
  obtain ⟨rp', input', hread, hinv, hclean, hrest, -⟩ := rioReadlineb_next h hc
  refine ⟨rp', input', ?_, hinv, hclean, hrest⟩
  rw [RioReadlineb, hread]
  cases fragments (stream (abs rp) input) with
  | nil => rfl
  | cons l ls =>
      rw [if_neg (by simp [nextLine])]
      rfl

section

variable {α : Type} {answers : (c : Call) → c.Answer}

theorem lineCalls_line (h : Inv rp) (hc : Clean input) (buf : Bytes) (rio : Rio) :
    ∃ rp' input', Inv rp' ∧ Clean input' ∧
      fragments (stream (abs rp') input') = (fragments (stream (abs rp) input)).tail ∧
      ∀ f : Int × Bytes × Rio → Calls α,
        lineCalls answers (RequestCalls.RioReadlineb rio buf MAXLINE >>= f) rp input =
          nextLine buf (fragments (stream (abs rp) input)) ::
            lineCalls answers (f ((nextLine buf (fragments (stream (abs rp) input))).1,
              (nextLine buf (fragments (stream (abs rp) input))).2, abs rp')) rp' input' := by
  obtain ⟨rp', input', hread, hinv, hclean, hrest⟩ := RioReadlineb_nextLine h hc buf
  refine ⟨rp', input', hinv, hclean, hrest, fun f => ?_⟩
  show lineCalls answers (.call (.rioReadlineb rio buf MAXLINE) f) rp input = _
  rw [lineCalls.eq_def]
  dsimp only
  rw [hread]

theorem readhdrsLoop_lineCalls {f : Rio → Calls α} (hf : ∀ rio, Writes (f rio)) (fuel : Nat)
    (buf : Bytes) (rio : Rio) (h : Inv rp) (hc : Clean input) :
    lineCalls answers (RequestCalls.readhdrsLoop fuel buf rio >>= f) rp input =
      readhdrsLines fuel buf (fragments (stream (abs rp) input)) := by
  induction fuel generalizing buf rio rp input with
  | zero => rfl
  | succ fuel ih =>
      rw [RequestCalls.readhdrsLoop, readhdrsLines]
      by_cases hb : buf = crlf
      · rw [if_pos hb, if_pos hb]
        exact (hf rio).lineCalls _ _ _
      · rw [if_neg hb, if_neg hb]
        obtain ⟨rp', input', hinv, hclean, hrest, hline⟩ := lineCalls_line h hc buf rio
        rw [← hrest, ← ih _ (abs rp') hinv hclean]
        exact hline fun r => RequestCalls.readhdrsLoop fuel r.2.1 r.2.2 >>= f

theorem requestReadhdrs_lineCalls {f : Rio → Calls α} (hf : ∀ rio, Writes (f rio)) (fuel : Nat)
    (stale : Bytes) (rio : Rio) (h : Inv rp) (hc : Clean input) :
    lineCalls answers (RequestCalls.requestReadhdrs fuel stale rio >>= f) rp input =
      headerLines fuel stale (fragments (stream (abs rp) input)) := by
  obtain ⟨rp', input', hinv, hclean, hrest, hline⟩ := lineCalls_line h hc stale rio
  rw [headerLines, ← hrest, ← readhdrsLoop_lineCalls hf _ _ (abs rp') hinv hclean]
  exact hline fun r => RequestCalls.readhdrsLoop fuel r.2.1 r.2.2 >>= f

theorem requestHandle_lineCalls (fuel : Nat) (buf : Bytes) (old : Locals)
    (arrival dispatch : Timeval) (stats : ThreadsStats) (h : Inv rp) (hnew : abs rp = ⟨[]⟩)
    (hc : Clean input) :
    lineCalls answers (RequestCalls.requestHandle fuel buf old arrival dispatch stats) rp input =
      handleLines fuel buf old (fragments (received input)) := by
  have hstream : stream (abs rp) input = received input := by rw [hnew, stream, List.nil_append]
  obtain ⟨rp₁, input₁, hinv₁, hclean₁, hrest₁, hline₁⟩ :=
    @lineCalls_line rp input ThreadsStats answers h hc buf Segel.rioReadinitb
  rw [RequestCalls.requestHandle, hline₁, handleLines, hstream]
  rw [hstream] at hrest₁
  congr 1
  dsimp only
  rw [isGet]
  by_cases hn : (nextLine buf (fragments (received input))).1 ≤ 0
  · rw [if_pos hn, if_neg fun hline => absurd hline.1 (not_lt.2 hn)]
    rfl
  by_cases hget :
      strcasecmp (sscanf (nextLine buf (fragments (received input))).2 old).method (str "GET") = true
  · rw [if_neg hn, if_pos hget, if_pos ⟨not_le.1 hn, hget⟩, ← hrest₁]
    exact requestReadhdrs_lineCalls (fun _ => requestGet_writes _ _ _ _) _ _ _ hinv₁ hclean₁
  · conv_rhs => rw [if_neg fun hline => hget hline.2]
    rw [if_neg hn, if_neg hget]
    split
    · exact ((requestServePost_writes _ _ _).bind fun _ => returns_writes _).lineCalls _ _ _
    · exact (refuses_writes _ _ _ _ _ _ _).lineCalls _ _ _

end

def pieces : (m : Nat) → RioT → List ReadAnswer → List Bytes × RioT × List ReadAnswer
  | 0, rp, input => ([], rp, input)
  | m + 1, rp, input =>
      let r := rioReadlineb rp MAXLINE input
      let rest := pieces m r.2.2.1 r.2.2.2
      (r.2.1.toList ++ rest.1, rest.2)

theorem pieces_keep (m : Nat) (h : Inv rp) (hc : Clean input) :
    ∃ rp' input', pieces m rp input = ((fragments (stream (abs rp) input)).take m, rp', input') ∧
      Inv rp' ∧
      ((fragments (stream (abs rp) input)).take m).flatten ++ stream (abs rp') input' =
        stream (abs rp) input := by
  induction m generalizing rp input with
  | zero => exact ⟨rp, input, rfl, h, rfl⟩
  | succ m ih =>
      obtain ⟨rp₁, input₁, hread, hinv, hclean, hrest, hkeep⟩ := rioReadlineb_next h hc
      obtain ⟨rp', input', hpieces, hinv', hkeep'⟩ := ih hinv hclean
      refine ⟨rp', input', ?_, hinv', ?_⟩
      · rw [pieces, hread]
        dsimp only
        rw [hpieces, hrest]
        cases fragments (stream (abs rp) input) <;> simp
      · rw [hrest] at hkeep'
        calc ((fragments (stream (abs rp) input)).take (m + 1)).flatten ++ stream (abs rp') input'
            = (fragments (stream (abs rp) input)).head?.getD [] ++
                (((fragments (stream (abs rp) input)).tail.take m).flatten ++
                  stream (abs rp') input') := by cases fragments (stream (abs rp) input) <;> simp
          _ = stream (abs rp) input := by rw [hkeep', hkeep]

theorem abs_readinitb (buf : Bytes) : abs (rioReadinitb buf) = ⟨[]⟩ := rfl

/-- What the calls of `Rio_readlineb` in a request return depends on the stream, not on the
pieces in which `read` delivers it: it is cut after each LF and after `MAXLINE - 1`
bytes. -/
theorem segments_unobservable {junk junk' : Bytes} (hjunk : junk.length = 8192)
    (hjunk' : junk'.length = 8192) (hc : Clean input) (hc' : Clean input')
    (hsame : received input = received input') (answers answers' : (c : Call) → c.Answer)
    (fuel : Nat) (buf : Bytes) (old : Locals) (arrival dispatch : Timeval) (stats : ThreadsStats) :
    lineCalls answers (RequestCalls.requestHandle fuel buf old arrival dispatch stats)
        (rioReadinitb junk) input =
      lineCalls answers' (RequestCalls.requestHandle fuel buf old arrival dispatch stats)
        (rioReadinitb junk') input' ∧
    lineCalls answers (RequestCalls.requestHandle fuel buf old arrival dispatch stats)
        (rioReadinitb junk) input = handleLines fuel buf old (fragments (received input)) ∧
    ∀ m, ∃ rp' rest,
      pieces m (rioReadinitb junk) input = ((fragments (received input)).take m, rp', rest) ∧
      Inv rp' ∧
      ((fragments (received input)).take m).flatten ++ ((abs rp').unread ++ received rest) =
        received input := by
  have hlines := @requestHandle_lineCalls _ _ answers fuel buf old arrival dispatch stats
    (readinitb_inv hjunk) (abs_readinitb junk) hc
  have hlines' := @requestHandle_lineCalls _ _ answers' fuel buf old arrival dispatch stats
    (readinitb_inv hjunk') (abs_readinitb junk') hc'
  refine ⟨hlines.trans ?_, hlines, fun m => pieces_keep m (readinitb_inv hjunk) hc⟩
  rw [hlines', hsame]

def noFiles : (c : Call) → c.Answer
  | .rioReadlineb _ _ _ => (0, [], Segel.rioReadinitb)
  | .stat _ => none
  | .openFile _ => (-1 : Int)
  | .mmap _ _ => none
  | .fork _ _ => (1 : Nat)
  | .getLog => (0, [])
  | .rioWriten _ _ | .close _ | .munmap | .printf _ | .waitPid _ | .addToLog _ _ => ()

theorem segments_unobservable_interrupted :
    lineCalls noFiles (RequestCalls.requestHandle 1 [] unset ⟨0, 0⟩ ⟨0, 0⟩ ⟨0, 0, 0, 0, 0⟩)
        (rioReadinitb (List.replicate 8192 0))
        [.data (str "GET / HTTP/1.0\r\n\r\n") (by decide) (by decide)] =
      lineCalls noFiles (RequestCalls.requestHandle 1 [] unset ⟨0, 0⟩ ⟨0, 0⟩ ⟨0, 0, 0, 0, 0⟩)
        (rioReadinitb (List.replicate 8192 0))
        [.eintr, .data (str "G") (by decide) (by decide), .eintr, .eintr,
          .data (str "ET / HTTP/1.0\r\n\r") (by decide) (by decide),
          .data (str "\n") (by decide) (by decide)] := by
  have hclean : Clean [.data (str "GET / HTTP/1.0\r\n\r\n") (by decide) (by decide)] := by
    simp [Clean]
  refine (segments_unobservable ?_ ?_ hclean ?_ ?_ _ _ _ _ _ _ _ _).1
  · exact List.length_replicate
  · exact List.length_replicate
  · simp [Clean]
  · decide

end WebServer.RioBuffer
