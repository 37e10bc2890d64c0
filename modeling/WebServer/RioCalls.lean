import WebServer.RioBuffer

namespace WebServer.RioCalls

open Message HeaderReading
open RioBuffer (RioT rioRead rioReadinitb rioReadlineb readLoop abs rioRead_refines abs_readinitb
  readinitb_inv)
open Segel (ReadAnswer Rio)

variable {rp : RioT} {rio : Rio} {input : List ReadAnswer} {k n : Nat} {s acc : Bytes}
  {later : List Bytes} {stop : UInt8 → Bool}

/-- The loop of `rio_readnb`: its return value, and the bytes it has stored. When
`rio_read` returns -1, `errno` is not EINTR. -/
def readnbLoop (n nleft : Nat) (acc : Bytes) (rp : RioT) (input : List ReadAnswer) :
    Int × Bytes × RioT × List ReadAnswer :=
  if 0 < nleft then
    let r := rioRead rp nleft input
    if r.1 < 0 then (-1, acc, r.2.2)
    else if r.1 = 0 then (n - nleft, acc, r.2.2)
    else readnbLoop n (nleft - r.1.toNat) (acc ++ r.2.1) r.2.2.1 r.2.2.2
  else (n - nleft, acc, rp, input)
termination_by nleft
decreasing_by
  refine Nat.sub_lt ‹0 < nleft› ?_
  have hneg : ¬ (rioRead rp nleft input).1 < 0 := ‹¬ r.1 < 0›
  have hzero : ¬ (rioRead rp nleft input).1 = 0 := ‹¬ r.1 = 0›
  rw [Int.lt_toNat]
  omega

def rioReadnb (rp : RioT) (n : Nat) (input : List ReadAnswer) :
    Int × Bytes × RioT × List ReadAnswer :=
  readnbLoop n n [] rp input

/-- The loop of `rio_readn`. A `read` with room for less than there is leaves the rest for
the next one. -/
def readnLoop (n : Nat) : (nleft : Nat) → (acc : Bytes) → List ReadAnswer →
    Int × Bytes × List ReadAnswer
  | nleft, acc, [] => (n - nleft, acc, [])
  | nleft, acc, a :: input =>
      if nleft = 0 then (n - nleft, acc, a :: input)
      else
        match a with
        | .data bs _ _ =>
            if h : nleft < bs.length then
              (n, acc ++ bs.take nleft,
                .data (bs.drop nleft) (by simpa using h) (by rw [List.length_drop]; omega) :: input)
            else readnLoop n (nleft - bs.length) (acc ++ bs) input
        | .eintr => readnLoop n nleft acc input
        | .failed => (-1, acc, input)

def rioReadn (n : Nat) (input : List ReadAnswer) : Int × Bytes × List ReadAnswer :=
  readnLoop n n [] input

/-- The bytes up to the first `read` that fails, those up to the next, and so on; the last
ones are followed by the end of file. -/
abbrev Feed := Bytes × List Bytes

def feed : List ReadAnswer → Feed
  | [] => ([], [])
  | .data bs _ _ :: input => (bs ++ (feed input).1, (feed input).2)
  | .eintr :: input => feed input
  | .failed :: input => ([], (feed input).1 :: (feed input).2)

def ahead (rio : Rio) (input : List ReadAnswer) : Feed :=
  (rio.unread ++ (feed input).1, (feed input).2)

theorem feed_clean (hc : Clean input) : feed input = (received input, []) := by
  induction input with
  | nil => rfl
  | cons a input ih =>
      have ih := ih fun x hx => hc x (List.mem_cons_of_mem _ hx)
      cases a with
      | data bs hne hfits => rw [feed, ih, received_data]
      | eintr => rw [feed, ih, received_eintr]
      | failed => exact absurd rfl (hc _ (by simp))

/-- Bytes are taken off: `k`, or fewer where one of them stops it, or where the end of
file comes. The first component is false where a `read` has failed before. -/
def taken (stop : UInt8 → Bool) : (k : Nat) → Bytes → List Bytes → Bool × Bytes × Feed
  | 0, s, later => (true, [], s, later)
  | _ + 1, [], [] => (true, [], [], [])
  | _ + 1, [], s :: later => (false, [], s, later)
  | k + 1, c :: s, later =>
      if stop c then (true, [c], s, later)
      else ((taken stop k s later).1, c :: (taken stop k s later).2.1, (taken stop k s later).2.2)

def never (_ : UInt8) : Bool := false

def atLf (c : UInt8) : Bool := decide (c = 10)

theorem taken_never (k : Nat) (c : UInt8) (s : Bytes) (later : List Bytes) :
    taken never (k + 1) (c :: s) later = ((taken never k s later).1,
      c :: (taken never k s later).2.1, (taken never k s later).2.2) := rfl

theorem taken_append (hk : s.length ≤ k) (t : Bytes) : taken never k (s ++ t) later =
    ((taken never (k - s.length) t later).1, s ++ (taken never (k - s.length) t later).2.1,
      (taken never (k - s.length) t later).2.2) := by
  induction s generalizing k with
  | nil => rfl
  | cons c s ih =>
      obtain ⟨k, rfl⟩ : ∃ j, k = j + 1 := ⟨k - 1, by rw [List.length_cons] at hk; omega⟩
      rw [List.cons_append, taken_never, ih (by simpa using hk)]
      simp

theorem taken_all (hk : k ≤ s.length) :
    taken never k s later = (true, s.take k, s.drop k, later) := by
  induction k generalizing s with
  | zero => rfl
  | succ k ih =>
      cases s with
      | nil => simp at hk
      | cons c s =>
          rw [taken_never, ih (by simpa using hk)]
          rfl

theorem taken_keeps (h : (taken stop k s later).1 = true) :
    (taken stop k s later).2.1 ++ (taken stop k s later).2.2.1 = s ∧
      (taken stop k s later).2.2.2 = later := by
  induction k generalizing s with
  | zero => exact ⟨rfl, rfl⟩
  | succ k ih =>
      cases s with
      | nil =>
          cases later with
          | nil => exact ⟨rfl, rfl⟩
          | cons s later => cases h
      | cons c s =>
          rw [taken] at h ⊢
          split at h
          · next hc =>
            rw [if_pos hc]
            exact ⟨rfl, rfl⟩
          · next hc =>
            rw [if_neg hc]
            obtain ⟨hkeep, hlater⟩ := ih h
            exact ⟨congrArg (c :: ·) hkeep, hlater⟩

theorem taken_clean (stop : UInt8 → Bool) (k : Nat) (s : Bytes) : (taken stop k s []).1 = true := by
  induction k generalizing s with
  | zero => rfl
  | succ k ih =>
      cases s with
      | nil => rfl
      | cons c s =>
          rw [taken]
          split
          · rfl
          · exact ih s

inductive Takes (n : Nat) (f : Feed) : Segel.ReadResult × Rio × List ReadAnswer → Prop
  | got {bs rio' input'} (fits : bs.length ≤ n)
      (same : f = (bs ++ (ahead rio' input').1, (ahead rio' input').2)) :
      Takes n f (.got bs, rio', input')
  | eof {rio' input'} (none : f = ([], [])) (same : ahead rio' input' = ([], [])) :
      Takes n f (.eof, rio', input')
  | error {rio' input' s later} (fails : f = ([], s :: later))
      (same : ahead rio' input' = (s, later)) : Takes n f (.error, rio', input')

theorem rioRead_takes (n : Nat) (rio : Rio) (input : List ReadAnswer) :
    Takes n (ahead rio input) (Segel.rioRead n rio input) := by
  have unread (b : UInt8) (bs : Bytes) (input : List ReadAnswer) :
      Takes n (ahead ⟨b :: bs⟩ input) (Segel.rioRead n ⟨b :: bs⟩ input) := by
    rw [Segel.rioRead]
    refine .got (List.length_take_le _ _) ?_
    rw [ahead, ahead, ← List.append_assoc, List.take_append_drop]
  induction input generalizing rio with
  | nil =>
      obtain ⟨_ | ⟨b, bs⟩⟩ := rio
      · exact .eof rfl rfl
      · exact unread b bs []
  | cons a input ih =>
      obtain ⟨_ | ⟨b, bs⟩⟩ := rio
      · cases a with
        | data bs hne hfits => exact ih ⟨bs⟩
        | eintr => exact ih ⟨[]⟩
        | failed => exact .error rfl rfl
      · exact unread b bs _

inductive Reads (n : Nat) (f : Feed) : Int × Bytes × RioT × List ReadAnswer → Prop
  | got {rc : Int} {bs rp' input'} (inv : RioBuffer.Inv rp') (pos : 0 < rc) (count : rc = bs.length)
      (fits : bs.length ≤ n)
      (same : f = (bs ++ (ahead (abs rp') input').1, (ahead (abs rp') input').2)) :
      Reads n f (rc, bs, rp', input')
  | eof {rp' input'} (inv : RioBuffer.Inv rp') (none : f = ([], []))
      (same : ahead (abs rp') input' = ([], [])) : Reads n f (0, [], rp', input')
  | error {rp' input' s later} (inv : RioBuffer.Inv rp') (fails : f = ([], s :: later))
      (same : ahead (abs rp') input' = (s, later)) : Reads n f (-1, [], rp', input')

theorem rioRead_reads (h : RioBuffer.Inv rp) (hn : 0 < n) (input : List ReadAnswer) :
    Reads n (ahead (abs rp) input) (rioRead rp n input) := by
  have htakes := rioRead_takes n (abs rp) input
  have hreturned := rioRead_refines h hn input
  generalize Segel.rioRead n (abs rp) input = r at htakes hreturned
  generalize rioRead rp n input = r' at hreturned
  cases hreturned with
  | got inv pos le count =>
      cases htakes with
      | got fits same => exact .got inv pos count fits same
  | eof inv =>
      cases htakes with
      | eof none same => exact .eof inv none same
  | error inv =>
      cases htakes with
      | error fails same => exact .error inv fails same

structure Ends (acc : Bytes) (r : Bool × Bytes × Feed) (bytes : Bytes) (rp : RioT)
    (input : List ReadAnswer) : Prop where
  inv : RioBuffer.Inv rp
  bytes : bytes = acc ++ r.2.1
  same : ahead (abs rp) input = r.2.2

theorem readnbLoop_ends (acc : Bytes) (hn : acc.length + k = n) (h : RioBuffer.Inv rp) (input : List ReadAnswer) :
    ∃ bytes rp' input', readnbLoop n k acc rp input =
        (if (taken never k (ahead (abs rp) input).1 (ahead (abs rp) input).2).1 then
          (bytes.length : Int) else -1, bytes, rp', input') ∧
      Ends acc (taken never k (ahead (abs rp) input).1 (ahead (abs rp) input).2) bytes
        rp' input' := by
  induction k using Nat.strong_induction_on generalizing acc rp input with
  | _ k ih =>
      rw [readnbLoop]
      by_cases hk : 0 < k
      · obtain ⟨j, rfl⟩ : ∃ j, k = j + 1 := ⟨k - 1, by omega⟩
        have hread := rioRead_reads h hk input
        generalize ahead (abs rp) input = f at hread
        generalize rioRead rp (j + 1) input = r at hread
        rw [if_pos hk]
        cases hread with
        | @got rc bs rp' input' inv pos count fits same =>
            dsimp only
            obtain ⟨bytes, rp'', input'', hloop, hends⟩ := ih (j + 1 - bs.length) (by omega)
              (acc ++ bs) (by rw [List.length_append]; omega) inv input'
            have hrc : rc.toNat = bs.length := by omega
            rw [if_neg (by omega), if_neg (by omega), hrc, hloop, same]
            dsimp only
            rw [taken_append fits]
            refine ⟨bytes, rp'', input'', rfl, hends.inv, ?_, hends.same⟩
            rw [hends.bytes, List.append_assoc]
        | eof inv none same =>
            subst none
            refine ⟨acc, _, _, ?_, inv, (List.append_nil _).symm, same⟩
            simp only [taken, lt_self_iff_false, if_false, if_true]
            congr 1
            omega
        | error inv fails same =>
            subst fails
            exact ⟨acc, _, _, rfl, inv, (List.append_nil _).symm, same⟩
      · obtain rfl : k = 0 := by omega
        rw [if_neg hk]
        refine ⟨acc, rp, input, ?_, h, (List.append_nil _).symm, rfl⟩
        simp only [taken, if_true]
        congr 1
        omega

def lineEnd (k n : Nat) (acc : Bytes) (r : Bool × Bytes × Feed) : Int × Option Bytes :=
  if r.1 then
    if n = 1 ∧ r.2.1 = [] ∧ 0 < k then (0, none)
    else ((n + lineCount r.2.1 - 1 : Nat), some (acc ++ r.2.1))
  else (-1, none)

theorem lineEnd_next {c : UInt8} (hc : c ≠ 10) (hn : 0 < n) (r : Bool × Bytes × Feed) :
    lineEnd k (n + 1) (acc ++ [c]) r = lineEnd (k + 1) n acc (r.1, c :: r.2.1, r.2.2) := by
  obtain ⟨ok, bytes, f⟩ := r
  cases ok with
  | false => rfl
  | true =>
      have hcount : n + 1 + lineCount bytes - 1 = n + lineCount (c :: bytes) - 1 := by
        rw [lineCount_cons hc]
        omega
      simp [lineEnd, hn.ne', hcount]

theorem readLoop_ends (acc : Bytes) (hn : 0 < n) (h : RioBuffer.Inv rp) (input : List ReadAnswer) :
    ∃ rp' input', readLoop k n acc rp input =
        ((lineEnd k n acc (taken atLf k (ahead (abs rp) input).1 (ahead (abs rp) input).2)).1,
          (lineEnd k n acc (taken atLf k (ahead (abs rp) input).1 (ahead (abs rp) input).2)).2,
          rp', input') ∧ RioBuffer.Inv rp' ∧
      ahead (abs rp') input' =
        (taken atLf k (ahead (abs rp) input).1 (ahead (abs rp) input).2).2.2 := by
  induction k generalizing n acc rp input with
  | zero =>
      refine ⟨rp, input, ?_, h, rfl⟩
      simp [readLoop, lineEnd, taken, lineCount]
  | succ k ih =>
      have hread := rioRead_reads h Nat.one_pos input
      rw [readLoop]
      generalize ahead (abs rp) input = f at hread
      generalize rioRead rp 1 input = r at hread
      cases hread with
      | @got rc bs rp' input' inv pos count fits same =>
          obtain rfl : rc = 1 := by omega
          obtain ⟨c, rfl⟩ : ∃ c, bs = [c] := List.length_eq_one_iff.1 (by omega)
          subst same
          rw [if_pos rfl, List.singleton_append, taken]
          by_cases hc : c = 10
          · refine ⟨rp', input', ?_, inv, ?_⟩
            · simp [hc, lineEnd, lineCount, atLf]
            · simp [hc, atLf]
          · obtain ⟨rp'', input'', hloop, hinv, hsame⟩ :=
              ih (acc ++ [c]) (Nat.succ_pos n) inv input'
            have hstop : ¬ atLf c = true := by simpa [atLf] using hc
            rw [if_neg hstop]
            refine ⟨rp'', input'', ?_, hinv, hsame⟩
            rw [← lineEnd_next hc hn]
            simpa [hc] using hloop
      | @eof rp' input' inv none same =>
          subst none
          refine ⟨rp', input', ?_, inv, same⟩
          by_cases hn1 : n = 1 <;> simp [hn1, taken, lineEnd, lineCount]
      | @error rp' input' s later inv fails same =>
          subst fails
          exact ⟨rp', input', rfl, inv, same⟩

inductive ReadCall
  | readnb (n : Nat)
  | readlineb (maxlen : Nat)

def ReadCall.run : ReadCall → RioT → List ReadAnswer → (Int × Bytes) × RioT × List ReadAnswer
  | .readnb n, rp, input =>
      let r := rioReadnb rp n input
      ((r.1, if r.1 < 0 then [] else r.2.1), r.2.2)
  | .readlineb maxlen, rp, input =>
      let r := rioReadlineb rp maxlen input
      ((r.1, r.2.1.getD []), r.2.2)

/-- The same on the bytes to come -/
def ReadCall.onFeed : ReadCall → Feed → (Int × Bytes) × Feed
  | .readnb n, f =>
      let r := taken never n f.1 f.2
      (if r.1 then (r.2.1.length, r.2.1) else (-1, []), r.2.2)
  | .readlineb maxlen, f =>
      let r := taken atLf (maxlen - 1) f.1 f.2
      (if r.1 then (if r.2.1 = [] ∧ 1 < maxlen then 0 else lineCount r.2.1, r.2.1) else (-1, []),
        r.2.2)

def runCalls : List ReadCall → RioT → List ReadAnswer → List (Int × Bytes) × RioT × List ReadAnswer
  | [], rp, input => ([], rp, input)
  | c :: cs, rp, input =>
      let r := c.run rp input
      let rest := runCalls cs r.2.1 r.2.2
      (r.1 :: rest.1, rest.2)

def onFeed : List ReadCall → Feed → List (Int × Bytes) × Feed
  | [], f => ([], f)
  | c :: cs, f => ((c.onFeed f).1 :: (onFeed cs (c.onFeed f).2).1, (onFeed cs (c.onFeed f).2).2)

theorem run_onFeed (c : ReadCall) (h : RioBuffer.Inv rp) (input : List ReadAnswer) :
    ∃ rp' input', c.run rp input = ((c.onFeed (ahead (abs rp) input)).1, rp', input') ∧
      RioBuffer.Inv rp' ∧ ahead (abs rp') input' = (c.onFeed (ahead (abs rp) input)).2 := by
  cases c with
  | readnb n =>
      obtain ⟨bytes, rp', input', hloop, hends⟩ :=
        readnbLoop_ends (n := n) [] (Nat.zero_add n) h input
      have hbytes := hends.bytes
      rw [List.nil_append] at hbytes
      refine ⟨rp', input', ?_, hends.inv, hends.same⟩
      rw [ReadCall.run, rioReadnb, hloop, ReadCall.onFeed, ← hbytes]
      cases (taken never n (ahead (abs rp) input).1 (ahead (abs rp) input).2).1 <;> simp
  | readlineb maxlen =>
      obtain ⟨rp', input', hloop, hinv, hsame⟩ :=
        readLoop_ends (k := maxlen - 1) [] Nat.one_pos h input
      refine ⟨rp', input', ?_, hinv, hsame⟩
      rw [ReadCall.run, rioReadlineb, hloop, ReadCall.onFeed]
      dsimp only
      generalize taken atLf (maxlen - 1) (ahead (abs rp) input).1 (ahead (abs rp) input).2 = r
      obtain ⟨ok, bytes, f⟩ := r
      cases ok with
      | false => rfl
      | true =>
          by_cases hnone : bytes = [] ∧ 1 < maxlen
          · obtain ⟨rfl, hlt⟩ := hnone
            simp [lineEnd, hlt]
          · simp [lineEnd, hnone]

theorem runCalls_onFeed (cs : List ReadCall) (h : RioBuffer.Inv rp) (input : List ReadAnswer) :
    ∃ rp' input', runCalls cs rp input = ((onFeed cs (ahead (abs rp) input)).1, rp', input') ∧
      ahead (abs rp') input' = (onFeed cs (ahead (abs rp) input)).2 := by
  induction cs generalizing rp input with
  | nil => exact ⟨rp, input, rfl, rfl⟩
  | cons c cs ih =>
      obtain ⟨rp₁, input₁, hrun, hinv, hsame⟩ := run_onFeed c h input
      obtain ⟨rp', input', hruns, hrest⟩ := ih hinv input₁
      rw [hsame] at hruns hrest
      refine ⟨rp', input', ?_, hrest⟩
      rw [runCalls, hrun, hruns]
      rfl

theorem ReadCall.onFeed_keeps (c : ReadCall) (s : Bytes) :
    (c.onFeed (s, [])).1.2 ++ (c.onFeed (s, [])).2.1 = s ∧ (c.onFeed (s, [])).2.2 = [] := by
  cases c with
  | readnb n =>
      have hok := taken_clean never n s
      simp only [ReadCall.onFeed, hok, if_true]
      exact taken_keeps hok
  | readlineb maxlen =>
      have hok := taken_clean atLf (maxlen - 1) s
      simp only [ReadCall.onFeed, hok, if_true]
      exact taken_keeps hok

theorem onFeed_keeps (cs : List ReadCall) (s : Bytes) :
    ((onFeed cs (s, [])).1.map Prod.snd).flatten ++ (onFeed cs (s, [])).2.1 = s ∧
      (onFeed cs (s, [])).2.2 = [] := by
  induction cs generalizing s with
  | nil => exact ⟨rfl, rfl⟩
  | cons c cs ih =>
      obtain ⟨hkeep, hlater⟩ := c.onFeed_keeps s
      rw [onFeed]
      generalize c.onFeed (s, []) = r at hkeep hlater
      obtain ⟨out, s', later⟩ := r
      obtain rfl : later = [] := hlater
      obtain ⟨hkeeps, hlaters⟩ := ih s'
      refine ⟨?_, hlaters⟩
      rw [List.map_cons, List.flatten_cons, List.append_assoc, hkeeps]
      exact hkeep

theorem clean_of_feed (h : (feed input).2 = []) : Clean input := by
  induction input with
  | nil => nofun
  | cons a input ih =>
      cases a with
      | data | eintr => exact List.forall_mem_cons.2 ⟨nofun, ih h⟩
      | failed => cases h

theorem readnLoop_ends (acc : Bytes) (hn : acc.length + k = n) (input : List ReadAnswer) :
    ∃ bytes input', readnLoop n k acc input =
        (if (taken never k (feed input).1 (feed input).2).1 then (bytes.length : Int) else -1,
          bytes, input') ∧
      bytes = acc ++ (taken never k (feed input).1 (feed input).2).2.1 ∧
      feed input' = (taken never k (feed input).1 (feed input).2).2.2 := by
  have hcount : (n : Int) - k = acc.length := by omega
  induction input generalizing k acc with
  | nil =>
      refine ⟨acc, [], ?_, ?_, ?_⟩
      · rw [readnLoop, hcount]
        cases k <;> rfl
      · cases k <;> exact (List.append_nil _).symm
      · cases k <;> rfl
  | cons a input ih =>
      rw [readnLoop.eq_def]
      dsimp only
      by_cases hk : k = 0
      · subst k
        rw [if_pos rfl, hcount]
        exact ⟨acc, _, rfl, (List.append_nil _).symm, rfl⟩
      · rw [if_neg hk]
        cases a with
        | data bs hne hfits =>
            dsimp only
            by_cases hlt : k < bs.length
            · have hlen : (acc ++ bs.take k).length = n := by
                rw [List.length_append, List.length_take, min_eq_left hlt.le, hn]
              rw [dif_pos hlt, feed, taken_all (by rw [List.length_append]; omega), ← hlen]
              dsimp only
              rw [List.take_append_of_le_length hlt.le, List.drop_append_of_le_length hlt.le]
              exact ⟨_, _, rfl, rfl, rfl⟩
            · obtain ⟨bytes, input', hloop, hbytes, hfeed⟩ := ih (k := k - bs.length)
                (acc ++ bs) (by rw [List.length_append]; omega)
                (by rw [List.length_append]; omega)
              rw [dif_neg hlt, hloop, feed, taken_append (not_lt.1 hlt)]
              exact ⟨bytes, input', rfl, by rw [hbytes, List.append_assoc], hfeed⟩
        | eintr => exact ih acc hn hcount
        | failed =>
            obtain ⟨j, rfl⟩ := Nat.exists_eq_succ_of_ne_zero hk
            exact ⟨acc, input, rfl, (List.append_nil _).symm, rfl⟩

structure Agrees (call : Int × Bytes × List ReadAnswer) (r : (Int × Bytes) × Feed) : Prop where
  value : call.1 = r.1.1
  bytes : 0 ≤ call.1 → call.2.1 = r.1.2
  rest : feed call.2.2 = r.2

theorem rioReadn_agrees (n : Nat) (input : List ReadAnswer) :
    Agrees (rioReadn n input) ((ReadCall.readnb n).onFeed (feed input)) := by
  obtain ⟨bytes, rest, hloop, hbytes, hfeed⟩ := readnLoop_ends [] (Nat.zero_add n) input
  rw [List.nil_append] at hbytes
  rw [rioReadn, hloop, ReadCall.onFeed, ← hbytes, ← hfeed]
  cases (taken never n (feed input).1 (feed input).2).1 with
  | false => exact ⟨rfl, fun h => absurd h (not_le.2 neg_one_lt_zero), rfl⟩
  | true => exact ⟨rfl, fun _ => rfl, rfl⟩

/-- Whatever is asked for, in whatever pieces `read` delivers and wherever it fails, the
buffered readers return what they would without a buffer, and hand out the bytes of the
connection one after the other. A later `rio_readn` gets the bytes behind those that are
in the buffer. -/
theorem buffered_calls {junk : Bytes} (hjunk : junk.length = 8192) (cs : List ReadCall)
    (input : List ReadAnswer) :
    ∃ rp rest, runCalls cs (rioReadinitb junk) input = ((onFeed cs (feed input)).1, rp, rest) ∧
      (Clean input → ((onFeed cs (feed input)).1.map Prod.snd).flatten ++
        ((abs rp).unread ++ received rest) = received input) ∧
      ∀ n, Agrees (rioReadn n rest) ((ReadCall.readnb n).onFeed (feed rest)) := by
  obtain ⟨rp, rest, hruns, hrest⟩ := runCalls_onFeed cs (readinitb_inv hjunk) input
  rw [abs_readinitb] at hruns hrest
  refine ⟨rp, rest, hruns, fun hc => ?_, fun n => rioReadn_agrees n rest⟩
  obtain ⟨hkeep, hlater⟩ := onFeed_keeps cs (received input)
  have hfeed : ahead ⟨[]⟩ input = (received input, []) := feed_clean hc
  rw [hfeed] at hrest
  have hclean : Clean rest := clean_of_feed ((congrArg Prod.snd hrest).trans hlater)
  rw [ahead, feed_clean hclean] at hrest
  rw [feed_clean hc]
  rw [← hrest] at hkeep
  exact hkeep

theorem buffered_calls_mixed : ∃ rp rest,
    runCalls [.readnb 2, .readlineb 8, .readnb 9] (rioReadinitb (List.replicate 8192 0))
        [.data (str "ab") (by decide) (by decide), .eintr,
          .data (str "c\nd") (by decide) (by decide)] =
      ([(2, str "ab"), (2, str "c\n"), (1, str "d")], rp, rest) := by
  obtain ⟨rp, rest, hruns, -⟩ := buffered_calls (List.length_replicate (n := 8192) (a := 0))
    [.readnb 2, .readlineb 8, .readnb 9]
    [.data (str "ab") (by decide) (by decide), .eintr,
      .data (str "c\nd") (by decide) (by decide)]
  exact ⟨rp, rest, hruns⟩

end WebServer.RioCalls
