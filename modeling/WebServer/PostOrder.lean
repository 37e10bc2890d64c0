import WebServer.LogHistory
import WebServer.ServedRequests

namespace WebServer.PostOrder

open Server Connections Accounting RequestHistory LogReaders ServedRequests
open LogHistory (snoc_split)
open RequestQueue (Request)
open Visibility (entriesOf entriesOf_infix posted_body unreturned before split_before)
open Visibility (fetch record ask atLogFor)

variable {n cap : Nat} {junk : Nat → Request} {byte : Nat → ServerLog.Byte} {listenfd : Int}
  {s s' : System n} {k p q : Nat} {i j : Fin n} {tr pre pre' post post' : List (Event n)}
  {e e' : Event n} {dst dst' : Message.Bytes} {m m' connfd : Int}
  {es : List Request}

theorem trace_change (hc : Change s s') : s'.trace = s.trace ∨ ∃ e, s'.trace = s.trace ++ [e] := by
  cases hc with
  | accepted | enqueued | dequeued | returned | closed | finished | reads | got | logged | wrote
  | forked | output | duplicated | spawned | shut | ended => exact .inr ⟨_, rfl⟩
  | _ => exact .inl rfl

/-- In a run from `s₀`, which enqueues `es`, a step appends `e` to `pre`. -/
def Happens (s₀ : System n) (pre : List (Event n)) (e : Event n) (es : List Request) : Prop :=
  ∃ s s', Reachable s₀ s ∧ Reachable s₀ s' ∧ Change s s' ∧ s.trace = pre ∧
    s'.trace = s.trace ++ [e] ∧ s'.enqueued <+: es

theorem happens_of_trace (h : Reachable (start n junk cap byte listenfd) s) :
    ∀ pre e post, s.trace = pre ++ e :: post →
      Happens (start n junk cap byte listenfd) pre e s.enqueued := by
  refine h.changes (I := fun s => ∀ pre e post, s.trace = pre ++ e :: post →
    Happens (start n junk cap byte listenfd) pre e s.enqueued) ?_ ?_
  · intro pre e post htr
    simp [start] at htr
  · intro s s' hr hr' ih hc pre e post htr
    have earlier {post : List (Event n)} (htr : s.trace = pre ++ e :: post) :
        Happens (start n junk cap byte listenfd) pre e s'.enqueued := by
      obtain ⟨s₁, s₂, h₁, h₂, hc₁, hpre, hnext, hes⟩ := ih pre e post htr
      exact ⟨s₁, s₂, h₁, h₂, hc₁, hpre, hnext, hes.trans (enqueued_change hc)⟩
    rcases trace_change hc with hsame | ⟨e', hnext⟩
    · exact earlier (hsame ▸ htr)
    · rw [hnext] at htr
      rcases snoc_split htr with ⟨post', -, htr⟩ | ⟨rfl, hpre⟩
      · exact earlier htr
      · exact ⟨s, s', hr, hr', hc, hpre, hnext, List.prefix_rfl⟩

theorem event_order (h : pre ++ e :: post = pre' ++ e' :: post') :
    pre <+: pre' ∨ pre' ++ [e'] <+: pre := by
  rcases List.append_eq_append_iff.1 h with ⟨a, rfl, -⟩ | ⟨c, rfl, hc⟩
  · exact .inl (List.prefix_append pre a)
  · cases c with
    | nil => exact .inl (by simp)
    | cons x c =>
        obtain ⟨rfl, -⟩ := List.cons.inj hc
        exact .inr ⟨c, by simp⟩

theorem logIn_mono (h : pre <+: tr) : logIn pre <+: logIn tr := by
  obtain ⟨post, rfl⟩ := h
  rw [logIn, logIn, loggedIn, loggedIn, List.filterMap_append, List.flatten_append]
  exact List.prefix_append _ _

theorem mem_entriesOf {bytes : Message.Bytes} : bytes ∈ entriesOf tr k ↔ .logged k bytes ∈ tr := by
  rw [entriesOf, List.mem_filterMap]
  constructor
  · rintro ⟨e, he, hbytes⟩
    cases e with
    | logged k' bytes' =>
        obtain ⟨rfl, heq⟩ := Option.ite_none_right_eq_some.1 hbytes
        obtain rfl := Option.some.inj heq
        exact he
    | _ => cases hbytes
  · exact fun h => ⟨_, h, if_pos rfl⟩

theorem sentTo_mono (h : pre <+: tr) (k : Nat) : sentTo pre k <+: sentTo tr k := by
  obtain ⟨post, rfl⟩ := h
  rw [sentTo, sentTo, List.flatMap_append]
  exact List.prefix_append _ _

theorem handling_getLog (h : Reachable (start n junk cap byte listenfd) s)
    {f : RequestCalls.Call.Answer .getLog → RequestCalls.Calls RequestQueue.ThreadsStats}
    (hrest : s.rest i = some (.call .getLog f)) :
    (s.session i).log = none ∧ ∃ req, s.look (.worker i) = .handling req := by
  obtain ⟨hreq, ⟨hlog, -⟩, -⟩ := calling_reachable h i _ hrest
  exact ⟨hlog, hreq⟩

theorem reads_below (hcap : 1 ≤ cap) (h : Reachable (start n junk cap byte listenfd) s) :
    ∀ k, .reads k ∈ s.trace → k < s.accepts := by
  refine h.changes (I := fun s => ∀ k, .reads k ∈ s.trace → k < s.accepts) (by simp [start]) ?_
  intro s s' hr _ ih hc
  cases hc with
  | accepted =>
      intro k hk
      exact Nat.lt_succ_of_lt (ih k (by simpa using hk))
  | @reads μ i hm =>
      intro k hk
      rcases List.mem_append.1 hk with hk | hk
      · exact ih k hk
      · obtain rfl := Event.reads.inj (List.mem_singleton.1 hk)
        obtain ⟨f, hrest⟩ : ∃ f, s.rest i = some (.call .getLog f) := by
          have hdoing := atLog_reachable hr i
          rwa [hm.old] at hdoing
        obtain ⟨-, req, hlook⟩ := handling_getLog hr hrest
        have hn := numbers_reachable hcap hr
        have hbelow := hn.below i (by rw [hlook]; rfl)
        have hle := numbers_le hn (dequeued_of_enqueued hcap hr)
        exact hbelow.trans_le (hle.1.trans hle.2)
  | enqueued | dequeued | returned | closed | finished | got | logged | wrote | forked | output
  | duplicated | spawned | shut | ended => exact fun k hk => ih k (by simpa using hk)
  | _ => exact ih

theorem Happens.accepted
    (h : Happens (start n junk cap byte listenfd) pre (.accepted k connfd) es) : ∃ s,
      Reachable (start n junk cap byte listenfd) s ∧ s.trace = pre ∧ s.accepts = k := by
  obtain ⟨s, s', hr, -, hc, htr, he, -⟩ := h
  cases hc with
  | accepted => exact ⟨s, hr, htr, (show s.accepts = k ∧ _ by simpa using he).1⟩
  | _ => simp [System.goOn] at he

theorem Happens.reads (h : Happens (start n junk cap byte listenfd) pre (.reads k) es)
    (hcap : 1 ≤ cap) : .got k m dst ∉ pre := by
  obtain ⟨s, s', hr, -, hc, rfl, he, -⟩ := h
  cases hc with
  | @reads μ i hm =>
      obtain rfl : s.serving i = k := by simpa using he
      obtain ⟨f, hrest⟩ : ∃ f, s.rest i = some (.call .getLog f) := by
        have hdoing := atLog_reachable hr i
        rwa [hm.old] at hdoing
      have htells := told_reachable hcap hr _ _ (.called (by rw [hrest]; rfl))
      rw [htells.got, (handling_getLog hr hrest).1]
      simp
  | _ => simp [System.goOn] at he

theorem Happens.got (h : Happens (start n junk cap byte listenfd) pre (.got k m dst) es)
    (hcap : 1 ≤ cap) : sentTo pre k = [] := by
  obtain ⟨s, s', hr, -, hc, rfl, he, -⟩ := h
  cases hc with
  | @got μ i dst' m' f hm hrest =>
      obtain ⟨rfl, -⟩ : s.serving i = k ∧ _ := by simpa using he
      obtain ⟨W, hW⟩ := records_reachable hcap hr
      obtain ⟨hgoing, -⟩ := hW.going i _ hrest
      have hfresh : (s.made (s.serving i)).Fresh := hgoing.follows.1 hgoing.usual
      rw [((hW.shows _).alone hfresh.forked).1]
      exact hfresh.sent
  | _ => simp [System.goOn] at he

theorem Happens.logged (h : Happens (start n junk cap byte listenfd) pre (.logged k dst) es)
    (hcap : 1 ≤ cap) (j : Fin n) : .returned k j ∉ pre := by
  obtain ⟨s, s', hr, -, hc, rfl, he, -⟩ := h
  cases hc with
  | @logged μ i c e hm unread =>
      obtain ⟨rfl, -⟩ : s.serving i = k ∧ _ := by simpa using he
      obtain ⟨bs, len, f, hrest⟩ : ∃ bs len f, s.rest i = some (.call (.addToLog bs len) f) := by
        have hdoing := atLog_reachable hr i
        rwa [hm.old] at hdoing
      obtain ⟨⟨req, hlook⟩, -⟩ := calling_reachable hr i _ hrest
      exact unreturned hcap hr hlook j
  | _ => simp [System.goOn] at he

/-- The answer to request `k` shows `log`, as long as its length is an `int`. -/
def Shown (tr : List (Event n)) (k : Nat) (log : Message.Bytes) : Prop :=
  log.length < 2 ^ 31 → ∃ lines, Message.parse (sentTo tr k) = some (lines, log)

theorem reads_after (hcap : 1 ≤ cap) (h : Reachable (start n junk cap byte listenfd) s)
    (htr : s.trace = pre ++ .accepted k connfd :: post)
    (hread : s.trace = pre' ++ .reads k :: post') : pre <+: pre' := by
  rcases event_order (htr.symm.trans hread) with hbefore | hafter
  · exact hbefore
  · obtain ⟨s₁, hr, rfl, rfl⟩ := (happens_of_trace h _ _ _ htr).accepted
    have hmem : .reads s₁.accepts ∈ s₁.trace := hafter.subset (by simp)
    exact absurd (reads_below hcap hr _ hmem) (lt_irrefl _)

theorem reads_before (hcap : 1 ≤ cap) (h : Reachable (start n junk cap byte listenfd) s)
    (hgot : .got k m dst ∈ s.trace) (htr : s.trace = pre ++ e :: post)
    (hread : s.trace = pre' ++ .reads k :: post') (hsent : sentTo pre k ≠ []) : pre' <+: pre := by
  obtain ⟨before, after, hgot⟩ := List.append_of_mem hgot
  rcases event_order (htr.symm.trans hgot) with hlater | hearlier
  · have hnone := (happens_of_trace h _ _ _ hgot).got hcap
    have hprefix := sentTo_mono hlater k
    rw [hnone] at hprefix
    exact absurd (List.prefix_nil.1 hprefix) hsent
  · rcases event_order (htr.symm.trans hread) with hlater | hbefore
    · have hmem : .got k m dst ∈ pre' := hlater.subset (hearlier.subset (by simp))
      exact absurd hmem ((happens_of_trace h _ _ _ hread).reads hcap)
    · exact (List.prefix_append pre' _).trans hbefore

theorem logged_before (hcap : 1 ≤ cap) (h : Reachable (start n junk cap byte listenfd) s)
    (htr : s.trace = pre ++ e :: post) (hreturned : .returned k i ∈ pre)
    (hlogged : .logged k dst ∈ s.trace) : .logged k dst ∈ pre := by
  obtain ⟨before, after, hlogged⟩ := List.append_of_mem hlogged
  rcases event_order (htr.symm.trans hlogged) with hlater | hearlier
  · exact absurd (hlater.subset hreturned) ((happens_of_trace h _ _ _ hlogged).logged hcap i)
  · exact hearlier.subset (by simp)

/-- Two POSTs are answered with the log as it was when each of them began to read it, which
are beginnings of one log. When the second comes after a byte of the answer to the first
was sent, its log is no shorter, and it has the entries of every request whose call had
returned. -/
theorem posts_agree (hcap : 1 ≤ cap) (h : Reachable (start n junk cap byte listenfd) s)
    (hp : .returned p i ∈ s.trace) (hgp : .got p m dst ∈ s.trace)
    (hq : .returned q j ∈ s.trace) (hgq : .got q m' dst' ∈ s.trace) :
    ∃ P Q, ReadAs s.trace p P ∧ ReadAs s.trace q Q ∧ Shown s.trace p P ∧ Shown s.trace q Q ∧
      (P <+: Q ∨ Q <+: P) ∧
      ∀ pre connfd post, s.trace = pre ++ .accepted q connfd :: post →
        (sentTo pre p ≠ [] → P <+: Q) ∧
        ∀ k l, .returned k l ∈ pre → ∀ e ∈ entriesOf s.trace k, e <:+: Q := by
  obtain ⟨P, ⟨preP, postP, hreadP, rfl⟩, hshownP⟩ := posted_body hcap h hp hgp
  obtain ⟨Q, ⟨preQ, postQ, hreadQ, rfl⟩, hshownQ⟩ := posted_body hcap h hq hgq
  refine ⟨_, _, ⟨preP, postP, hreadP, rfl⟩, ⟨preQ, postQ, hreadQ, rfl⟩, hshownP, hshownQ, ?_,
    fun pre connfd post htr => ?_⟩
  · rcases event_order (hreadP.symm.trans hreadQ) with hfirst | hsecond
    · exact .inl (logIn_mono hfirst)
    · exact .inr (logIn_mono ((List.prefix_append preQ _).trans hsecond))
  · have hlater : logIn pre <+: logIn preQ := logIn_mono (reads_after hcap h htr hreadQ)
    refine ⟨fun hsent => ?_, fun k l hreturned e he => ?_⟩
    · exact (logIn_mono (reads_before hcap h hgp htr hreadP hsent)).trans hlater
    · have hmem := logged_before hcap h htr hreturned (mem_entriesOf.1 he)
      have hshown := entriesOf_infix (mem_entriesOf.2 hmem)
      exact hshown.trans hlater.isInfix

def again : List (Move 2) :=
  let line (bytes : Message.Bytes) : Server.Answer := .line bytes.length bytes ⟨[]⟩
  List.replicate 4 (.queue (.worker 1) .ok .empty) ++ arrive 5 ++ take 1 .empty ++
    .call 1 (line (Message.str "POST / HTTP/1.0\r\n")) :: .log 1 .getLog ::
    atLogFor 1 190 ++
    [.wrote 266, .done, .wrote 175, .done].map (.call 1 ·) ++ leave 1 ⟨2, 0, 0, 2, 2⟩

theorem again_ends : ((System.replay (fetch ++ ask 15 [.wrote 264, .done, .done] ++ record ++ again)
    (start 2 (fun _ => ⟨0, 0, 0⟩) 2 (fun _ => 0) 3)).any fun s => decide (
      .returned 1 1 ∈ s.trace ∧ .got 1 0 [0] ∈ s.trace ∧ .returned 2 1 ∈ s.trace ∧
        .got 2 175 (logIn s.trace ++ [0]) ∈ s.trace ∧ .accepted 2 5 ∈ s.trace ∧
          sentTo (before (.accepted 2 5) s.trace) 1 ≠ [] ∧
            .returned 0 0 ∈ before (.accepted 2 5) s.trace ∧ entriesOf s.trace 0 ≠ [])) = true := by
  decide +kernel

theorem posts_agree_again : ∃ s : System 2,
    Reachable (start 2 (fun _ => ⟨0, 0, 0⟩) 2 (fun _ => 0) 3) s ∧ entriesOf s.trace 0 ≠ [] ∧ ∃ P Q,
      ReadAs s.trace 1 P ∧ ReadAs s.trace 2 Q ∧ Shown s.trace 1 P ∧ Shown s.trace 2 Q ∧ P <+: Q ∧
        ∀ e ∈ entriesOf s.trace 0, e <:+: Q := by
  obtain ⟨s, h, hend⟩ := replay_ends again_ends
  obtain ⟨hp, hgp, hq, hgq, haccepted, hsent, hreturned, hne⟩ := of_decide_eq_true hend
  obtain ⟨post, htr⟩ := split_before haccepted
  obtain ⟨P, Q, hreadP, hreadQ, hP, hQ, -, horder⟩ := posts_agree (by decide) h hp hgp hq hgq
  obtain ⟨hPQ, hentries⟩ := horder _ _ post htr
  exact ⟨s, h, hne, P, Q, hreadP, hreadQ, hP, hQ, hPQ hsent, hentries 0 0 hreturned⟩

end WebServer.PostOrder
