import WebServer.Framing
import WebServer.LogReaders
import WebServer.RequestHistory

namespace WebServer.Visibility

open Message RequestCalls Sessions Server Connections Accounting LogReaders RequestHistory
open Answers (response contentLines int32_small)
open EndOfFile (mem_life)
open RequestQueue (Request)
open ServerLog (int32)

variable {n cap : Nat} {junk : Nat → Request} {byte : Nat → ServerLog.Byte} {listenfd : Int}
  {s s' : System n} {k p : Nat} {i : Fin n} {tr : List (Event n)} {ψ : Session} {e : Event n}
  {dst : Bytes} {m : Int}

/-- `message` is an answer to a POST that has been handed `m` and `dst`. -/
def Posted (message : Bytes) (m : Int) (dst : Bytes) : Prop :=
  ∃ stats arrival dispatch, message = response (contentLines m (str "text/plain")) stats arrival
    dispatch (dst.take (m % 2 ^ 64).toNat)

def Replied (tr : List (Event n)) : Prop :=
  ∀ k i, .returned k i ∈ tr → ∀ m dst, .got k m dst ∈ tr →
    (∀ pid, .forked k pid ∉ tr) ∧ Posted (sentTo tr k) m dst

theorem unreturned (hcap : 1 ≤ cap) (h : Reachable (start n junk cap byte listenfd) s) {req : Request}
    (hlook : s.look (.worker i) = .handling req) (j : Fin n) : .returned (s.serving i) j ∉ s.trace := by
  rw [← mem_life (k := s.serving i) rfl]
  rcases (lives_reachable hcap h _).worker (numbers_reachable hcap h)
      (dequeued_of_enqueued hcap h) (by rw [hlook]; rfl) with
    ⟨req', -, he⟩ | ⟨req', hclosing, -⟩ | ⟨connfd, hlast, -⟩
  · simp [he]
  · cases hlook.symm.trans hclosing
  · cases hlook.symm.trans hlast

theorem Replied.snoc (h : Replied tr) (he : ∀ k i, e ≠ .returned k i)
    (hother : ∀ k i, .returned k i ∈ tr → about k e = false) : Replied (tr ++ [e]) := by
  intro k i hreturned m dst hgot
  rw [List.mem_append, List.mem_singleton] at hreturned hgot
  have hreturned := hreturned.resolve_right (he k i).symm
  have habout := hother k i hreturned
  have hgot : .got k m dst ∈ tr := hgot.resolve_right (by rintro rfl; simp [about] at habout)
  obtain ⟨hforked, hposted⟩ := h k i hreturned m dst hgot
  refine ⟨fun pid hmem => ?_, by rwa [sentTo_other habout]⟩
  rw [List.mem_append, List.mem_singleton] at hmem
  rcases hmem with hmem | rfl
  · exact hforked pid hmem
  · simp [about] at habout

theorem replied_of_over (h : Tells tr k ψ) (hover : ψ.Over) (hgot : .got k m dst ∈ tr) :
    (∀ pid, .forked k pid ∉ tr) ∧ Posted (sentTo tr k) m dst := by
  have hlog := (h.got m dst).1 hgot
  obtain ⟨hforked, hsent⟩ := h.sent (h.alone (by rw [hlog]; rfl))
  refine ⟨hforked, ?_⟩
  rw [hsent]
  exact hover.posted m dst hlog

theorem replied_change (hcalling : Calling s.look s.rest s.session)
    (htold : Told s.look s.dequeued s.serving s.rest s.session s.trace)
    (hbusy : ∀ i req, s.look (.worker i) = .handling req → ∀ j, .returned (s.serving i) j ∉ s.trace)
    (ht : Conns s.fds (SystemHas s))
    (horigin : ∀ pid child, s.children pid = some child → ∃ pid', .forked child.serves pid' ∈ s.trace)
    (h : Replied s.trace) (hc : Change s s') : Replied s'.trace := by
  -- a worker tells of its own connection, whose call has not returned
  have own {i : Fin n} {req : Request} {e : Event n} (hlook : s.look (.worker i) = .handling req)
      (he : ∀ k i, e ≠ .returned k i) (habout : ∀ k, k ≠ s.serving i → about k e = false) :
      Replied (s.trace ++ [e]) := by
    refine h.snoc he fun k j hreturned => habout k ?_
    rintro rfl
    exact hbusy i req hlook j hreturned
  cases hc with
  | accepted | enqueued | dequeued | closed | finished | reads | logged | duplicated | spawned | shut
  | ended =>
      exact h.snoc (by simp) fun _ _ _ => rfl
  | @returned τ i req stats hm rest =>
      intro k j hreturned m dst hgot
      have hgot : .got k m dst ∈ s.trace := by simpa using hgot
      have hposted : (∀ pid, .forked k pid ∉ s.trace) ∧ Posted (sentTo s.trace k) m dst := by
        rw [List.mem_append, List.mem_singleton] at hreturned
        rcases hreturned with hreturned | heq
        · exact h k j hreturned m dst hgot
        · obtain ⟨rfl, rfl⟩ := Event.returned.inj heq
          exact replied_of_over (htold _ _ (.called (by rw [rest]; rfl))) (hcalling j _ rest).2 hgot
      rw [sentTo_other (e := .returned (s.serving i) i) rfl]
      exact ⟨by simpa using hposted.1, hposted.2⟩
  | @got μ i dst m k hm rest =>
      obtain ⟨⟨req, hlook⟩, -⟩ := hcalling i _ rest
      exact own hlook (by simp) fun k hk => by simpa [about] using hk.symm
  | @wrote i req usrbuf m k c j look rest conn le =>
      have hserved : inService (s.look (.worker i)) = some req := by rw [look]; rfl
      have hconn := ht.served hserved
      obtain rfl : s.serving i = c := by simpa using hconn.symm.trans conn
      exact own look (by simp) fun k hk => by simpa [about] using hk.symm
  | forked look rest => exact own look (by simp) fun k hk => by simpa [about] using hk.symm
  | @output pid child bytes found live =>
      intro k j hreturned m dst hgot
      obtain ⟨hforked, hposted⟩ := h k j (by simpa using hreturned) m dst (by simpa using hgot)
      have hk : child.serves ≠ k := by
        rintro rfl
        obtain ⟨pid', hpid'⟩ := horigin pid child found
        exact hforked pid' hpid'
      rw [sentTo_other (e := .sent child.serves bytes) (by simpa [about] using hk)]
      exact ⟨by simpa using hforked, hposted⟩
  | _ => exact h

theorem replied_reachable (hcap : 1 ≤ cap) (h : Reachable (start n junk cap byte listenfd) s) :
    Replied s.trace :=
  h.changes (I := fun s => Replied s.trace) nofun
    fun _ _ hr _ hi hc => replied_change (calling_reachable hr) (told_reachable hcap hr)
      (fun _ _ hlook => unreturned hcap hr hlook) (tables_reachable hcap hr).conns
      (fun _ _ found => child_origin hr found) hi hc

theorem posted_body (hcap : 1 ≤ cap) (h : Reachable (start n junk cap byte listenfd) s)
    (hreturned : .returned p i ∈ s.trace) (hgot : .got p m dst ∈ s.trace) :
    ∃ log, ReadAs s.trace p log ∧ (log.length < 2 ^ 31 →
      ∃ lines, Message.parse (sentTo s.trace p) = some (lines, log)) := by
  obtain ⟨log, hread, hdst, hm⟩ := (copies_reachable h).got p m dst hgot
  refine ⟨log, hread, fun hlen => ?_⟩
  obtain ⟨-, stats, arrival, dispatch, hsent⟩ := replied_reachable hcap h p i hreturned _ _ hgot
  have hbody : dst.take (m % 2 ^ 64).toNat = log := by
    have hn : ((log.length : Int) % 2 ^ 64).toNat = log.length := by omega
    rw [hm, int32_small hlen, hn, hdst, List.take_left]
  rw [hsent, hbody]
  exact ⟨_, (Framing.contentLines_front _ (by decide)).parse stats arrival dispatch log⟩

def entriesOf (tr : List (Event n)) (k : Nat) : List Bytes :=
  tr.filterMap fun
    | .logged k' e => if k' = k then some e else none
    | _ => none

/-- `bytes` are the whole response to request `k`: its call has returned, its program has
ended, or the body has the length that the header announces. -/
def Complete (tr : List (Event n)) (k : Nat) (bytes : Bytes) : Prop :=
  (∃ i, .returned k i ∈ tr) ∨ (∃ pid, .forked k pid ∈ tr ∧ .ended pid ∈ tr) ∨
    ∃ lines body, Message.parse bytes = some (lines, body) ∧
      Framing.contentLength ++ decimal body.length ∈ lines

/-- All bytes of the 200 response to request `k`, which does not read the log, were
written before connection `p` was accepted. -/
def AnsweredBefore (tr : List (Event n)) (k p : Nat) : Prop :=
  ∃ pre connfd post, tr = pre ++ .accepted p connfd :: post ∧
    str "HTTP/1.0 200 OK\r\n" <+: sentTo pre k ∧ sentTo tr k = sentTo pre k ∧
    Complete tr k (sentTo pre k) ∧ .reads k ∉ tr

/-- A POST begins to read the log when every GET that was answered before it came has
logged its entry, and while the length of the log is an `int`. -/
def Prompt (tr : List (Event n)) : Prop :=
  ∀ pre p post, tr = pre ++ .reads p :: post → (logIn pre).length < 2 ^ 31 ∧
    ∀ k, AnsweredBefore tr k p → entriesOf pre k ≠ [] ∧ entriesOf tr k = entriesOf pre k

theorem entriesOf_infix {e : Bytes} (h : e ∈ entriesOf tr k) : e <:+: logIn tr := by
  refine List.infix_of_mem_flatten (mem_loggedIn.2 ⟨k, ?_⟩)
  obtain ⟨ev, hev, he⟩ := List.mem_filterMap.1 h
  cases ev with
  | logged k' bytes =>
      obtain ⟨rfl, heq⟩ := Option.ite_none_right_eq_some.1 he
      obtain rfl := Option.some.inj heq
      exact hev
  | _ => cases he

/-- Where `add_to_log` keeps up with the answers, the answer to a POST shows the entry
of every GET that was answered before the POST came. -/
theorem answered_visible (hcap : 1 ≤ cap) (h : Reachable (start n junk cap byte listenfd) s)
    (hprompt : Prompt s.trace) (hanswered : AnsweredBefore s.trace k p)
    (hgot : .got p m dst ∈ s.trace) (hreturned : .returned p i ∈ s.trace) :
    entriesOf s.trace k ≠ [] ∧ ∃ lines body, Message.parse (sentTo s.trace p) = some (lines, body) ∧
      ∀ e ∈ entriesOf s.trace k, e <:+: body := by
  obtain ⟨log, ⟨pre, post, htr, rfl⟩, hparse⟩ := posted_body hcap h hreturned hgot
  obtain ⟨hlen, hlogged⟩ := hprompt pre p post htr
  obtain ⟨hne, hsame⟩ := hlogged k hanswered
  obtain ⟨lines, hmessage⟩ := hparse hlen
  rw [hsame]
  exact ⟨hne, lines, logIn pre, hmessage, fun e he => entriesOf_infix he⟩

def before (e : Event n) (tr : List (Event n)) : List (Event n) :=
  tr.takeWhile fun e' => decide (e' ≠ e)

theorem split_before (h : e ∈ tr) : ∃ post, tr = before e tr ++ e :: post := by
  induction tr with
  | nil => cases h
  | cons a tr ih =>
      by_cases ha : a = e
      · subst a
        exact ⟨tr, by simp [before]⟩
      · obtain ⟨post, hpost⟩ := ih ((List.mem_cons.1 h).resolve_left (Ne.symm ha))
        refine ⟨post, ?_⟩
        rw [before, List.takeWhile_cons_of_pos (by simpa using ha), List.cons_append]
        exact congrArg (a :: ·) hpost

theorem answered_of {connfd : Int} (haccepted : .accepted p connfd ∈ tr)
    (hreturned : .returned k i ∈ tr)
    (h : str "HTTP/1.0 200 OK\r\n" <+: sentTo (before (.accepted p connfd) tr) k ∧
      sentTo tr k = sentTo (before (.accepted p connfd) tr) k ∧ .reads k ∉ tr) :
    AnsweredBefore tr k p := by
  obtain ⟨post, htr⟩ := split_before haccepted
  exact ⟨_, connfd, post, htr, h.1, h.2.1, .inl ⟨i, hreturned⟩, h.2.2⟩

theorem sent_of {b : UInt8} (h : b ∈ sentTo tr k) : ∃ bytes, .sent k bytes ∈ tr := by
  obtain ⟨e, he, hb⟩ := List.mem_flatMap.1 h
  cases e with
  | sent k' bytes =>
      by_cases hk : k' = k
      · exact ⟨bytes, hk ▸ he⟩
      · simp [hk] at hb
  | _ => cases hb

def promptly (tr : List (Event n)) : Bool :=
  (List.range tr.length).all fun j => match tr[j]? with
    | some (.reads _) => decide ((logIn (tr.take j)).length < 2 ^ 31) && tr.all fun
        | .sent k _ => decide (.reads k ∈ tr ∨
            entriesOf (tr.take j) k ≠ [] ∧ entriesOf tr k = entriesOf (tr.take j) k)
        | _ => true
    | _ => true

theorem prompt_of (h : promptly tr = true) : Prompt tr := by
  intro pre p post htr
  have hcheck := List.all_eq_true.1 h pre.length (by simp [htr])
  have hread : tr[pre.length]? = some (.reads p) := by simp [htr]
  have htake : tr.take pre.length = pre := by simp [htr]
  simp only [hread, htake] at hcheck
  obtain ⟨hlen, hall⟩ := Bool.and_eq_true_iff.1 hcheck
  refine ⟨of_decide_eq_true hlen, ?_⟩
  rintro k ⟨pre', connfd, post', -, ⟨page, hstatus⟩, hsent, -, hget⟩
  obtain ⟨bytes, hbytes⟩ : ∃ bytes, .sent k bytes ∈ tr :=
    sent_of (b := 72) (by rw [hsent, ← hstatus]; exact List.mem_append_left _ (by decide))
  exact (of_decide_eq_true (List.all_eq_true.1 hall _ hbytes)).resolve_left hget

def fetch : List (Move 2) :=
  let line (bytes : Bytes) : Server.Answer := .line bytes.length bytes ⟨[]⟩
  arrive 4 ++ take 0 { Frame.empty with fuel := 1 } ++
    ([line (str "GET / HTTP/1.0\r\n"), line (str "\r\n"), .stat (some ⟨true, true, true, 1⟩),
      .opened 5, .mapped [65], .done, .wrote 263, .done, .wrote 1, .done].map (.call 0 ·))

def atLogFor (i : Fin 2) (m : Nat) : List (Move 2) := List.replicate m (.log i (.junk fun _ => 0))

def record : List (Move 2) :=
  let entry := RequestHandle.appendStats [] ⟨1, 1, 0, 0, 1⟩ ⟨0, 0⟩ ⟨0, 0⟩
  .call 0 .done :: .log 0 (.addToLog (some entry) ⟨175, by decide⟩) :: atLogFor 0 191 ++
    leave 0 ⟨1, 1, 0, 0, 1⟩

def ask (m : Nat) (answers : List Server.Answer) : List (Move 2) :=
  let line (bytes : Bytes) : Server.Answer := .line bytes.length bytes ⟨[]⟩
  arrive 5 ++ take 1 .empty ++ .call 1 (line (str "POST / HTTP/1.0\r\n")) :: .log 1 .getLog ::
    atLogFor 1 m ++ answers.map (.call 1 ·) ++ leave 1 ⟨2, 0, 0, 1, 1⟩

def shown (s : System 2) : Bool :=
  decide (.accepted 1 5 ∈ s.trace ∧ .returned 0 0 ∈ s.trace ∧ .returned 1 1 ∈ s.trace) &&
    decide (str "HTTP/1.0 200 OK\r\n" <+: sentTo (before (.accepted 1 5) s.trace) 0 ∧
      sentTo s.trace 0 = sentTo (before (.accepted 1 5) s.trace) 0 ∧ .reads 0 ∉ s.trace)

theorem shown_of {s : System 2} (h : shown s = true) : (.accepted 1 5 ∈ s.trace ∧
    .returned 0 0 ∈ s.trace ∧ .returned 1 1 ∈ s.trace) ∧ AnsweredBefore s.trace 0 1 := by
  obtain ⟨hevents, hanswered⟩ := Bool.and_eq_true_iff.1 h
  have hevents := of_decide_eq_true hevents
  exact ⟨hevents, answered_of hevents.1 hevents.2.1 (of_decide_eq_true hanswered)⟩

theorem early_ends : ((System.replay (fetch ++ ask 15 [.wrote 264, .done, .done] ++ record)
    (start 2 (fun _ => ⟨0, 0, 0⟩) 2 (fun _ => 0) 3)).any fun s => shown s && decide (
      .got 1 0 [0] ∈ s.trace ∧ entriesOf s.trace 0 ≠ [] ∧ (∀ e ∈ entriesOf s.trace 0, ¬ e <:+: []) ∧
        (Message.parse (sentTo s.trace 1)).map Prod.snd = some [])) = true := by
  decide +kernel

/-- The log is read between the last byte of the answer to a GET and its entry. -/
theorem answered_not_visible : ∃ s : System 2,
    Reachable (start 2 (fun _ => ⟨0, 0, 0⟩) 2 (fun _ => 0) 3) s ∧ AnsweredBefore s.trace 0 1 ∧
      .returned 0 0 ∈ s.trace ∧ entriesOf s.trace 0 ≠ [] ∧ .got 1 0 [0] ∈ s.trace ∧
      .returned 1 1 ∈ s.trace ∧ ∃ lines body, Message.parse (sentTo s.trace 1) = some (lines, body) ∧
        ∀ e ∈ entriesOf s.trace 0, ¬ e <:+: body := by
  obtain ⟨s, h, hend⟩ := replay_ends early_ends
  obtain ⟨hshown, hpost⟩ := Bool.and_eq_true_iff.1 hend
  obtain ⟨⟨haccepted, hget, hreturned⟩, hanswered⟩ := shown_of hshown
  obtain ⟨hgot, hlogged, hout, hbody⟩ := of_decide_eq_true hpost
  obtain ⟨⟨lines, body⟩, hparse, rfl⟩ := Option.map_eq_some_iff.1 hbody
  exact ⟨s, h, hanswered, hget, hlogged, hgot, hreturned, lines, [], hparse, hout⟩

theorem late_ends : ((System.replay (fetch ++ record ++ ask 190 [.wrote 266, .done, .wrote 175, .done])
    (start 2 (fun _ => ⟨0, 0, 0⟩) 2 (fun _ => 0) 3)).any fun s => shown s && (promptly s.trace &&
      decide (.got 1 175 (logIn s.trace ++ [0]) ∈ s.trace))) = true := by
  decide +kernel

theorem answered_visible_late : ∃ s : System 2,
    Reachable (start 2 (fun _ => ⟨0, 0, 0⟩) 2 (fun _ => 0) 3) s ∧ entriesOf s.trace 0 ≠ [] ∧
    ∃ lines body, Message.parse (sentTo s.trace 1) = some (lines, body) ∧
      ∀ e ∈ entriesOf s.trace 0, e <:+: body := by
  obtain ⟨s, h, hend⟩ := replay_ends late_ends
  obtain ⟨hshown, hpost⟩ := Bool.and_eq_true_iff.1 hend
  obtain ⟨hprompt, hgot⟩ := Bool.and_eq_true_iff.1 hpost
  obtain ⟨⟨-, -, hreturned⟩, hanswered⟩ := shown_of hshown
  exact ⟨s, h, answered_visible (by decide) h (prompt_of hprompt) hanswered (of_decide_eq_true hgot)
    hreturned⟩

end WebServer.Visibility
