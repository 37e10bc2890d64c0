import WebServer.ErrorPages
import WebServer.PostOrder
import WebServer.StatsText

namespace WebServer.LogRecords

open Message Server RequestHistory LogReaders PostOrder Transcripts
open ErrorPages (Numbers appendStats_length)
open Framing (Front answer_front)
open Answers (int32_small Reply response okLines contentLines errorLines statsBlock)
open RequestQueue (Request ThreadsStats Timeval)
open ServedRequests (records_reachable underway_of)
open ServerLog (int32)
open StatsText (Record readLog readLog_entries entry_eq)
open Visibility (entriesOf posted_body split_before)

variable {n cap : Nat} {junk : Nat → Request} {byte : Nat → ServerLog.Byte} {listenfd : Int}
  {s : System n} {k p : Nat} {i : Fin n} {tr pre post : List (Event n)} {es : List Request}
  {dst e : Bytes} {m : Int} {r : Record} {t : Task} {ψ : Transcript}

def loggers (tr : List (Event n)) : List Nat :=
  tr.filterMap fun
    | .logged k _ => some k
    | _ => none

theorem mem_loggers : k ∈ loggers tr ↔ ∃ e, .logged k e ∈ tr := by
  rw [loggers, List.mem_filterMap]
  constructor
  · rintro ⟨ev, hev, hk⟩
    cases ev with
    | logged k' e =>
        obtain rfl := Option.some.inj hk
        exact ⟨e, hev⟩
    | _ => cases hk
  · rintro ⟨e, he⟩
    exact ⟨_, he, rfl⟩

theorem count_loggers (tr : List (Event n)) (k : Nat) :
    (loggers tr).count k = (entriesOf tr k).length := by
  induction tr with
  | nil => rfl
  | cons ev tr ih =>
      cases ev with
      | logged k' e =>
          by_cases hk : k' = k
          · subst k'
            simpa [loggers, entriesOf] using ih
          · simpa [loggers, entriesOf, hk] using ih
      | _ => simpa [loggers, entriesOf] using ih

theorem loggedIn_eq {f : Nat → Bytes} (h : ∀ k e, .logged k e ∈ tr → e = f k) :
    loggedIn tr = (loggers tr).map f := by
  induction tr with
  | nil => rfl
  | cons ev tr ih =>
      have ih := ih fun k e he => h k e (List.mem_cons_of_mem ev he)
      cases ev with
      | logged k e =>
          have he := h k e List.mem_cons_self
          simpa [loggers, loggedIn, he] using ih
      | _ => simpa [loggers, loggedIn] using ih

theorem stored_length (data : Bytes) (len : Int) : (stored data len).length ≤ 1 := by
  rw [stored]
  split <;> simp

theorem entries_length (t : Task) (ψ : Transcript) :
    ((t.entries ψ).flatMap fun e => stored e e.length).length ≤ 1 := by
  have hone : t.entries ψ = [] ∨ ∃ data, t.entries ψ = [data] := by
    rw [Task.entries]
    cases t.reply ψ with
    | none => exact .inl rfl
    | some reply =>
        cases reply with
        | error | log => exact .inl rfl
        | file | emptyFile | program => exact .inr ⟨_, rfl⟩
  rcases hone with hnone | ⟨data, hone⟩
  · simp [hnone]
  · rw [hone, List.flatMap_singleton]
    exact stored_length data _

theorem one_entry (hcap : 1 ≤ cap) (h : Reachable (start n junk cap byte listenfd) s) (k : Nat) :
    (entriesOf s.trace k).length ≤ 1 := by
  obtain ⟨W, hW⟩ := records_reachable hcap h
  exact (underway_of hW k).logged.length_le.trans (entries_length _ _)

theorem entriesOf_mono (h : pre <+: tr) : (entriesOf pre k).length ≤ (entriesOf tr k).length := by
  obtain ⟨post, rfl⟩ := h
  rw [entriesOf, entriesOf, List.filterMap_append, List.length_append]
  exact Nat.le_add_right _ _

theorem loggers_nodup (hcap : 1 ≤ cap) (h : Reachable (start n junk cap byte listenfd) s)
    (hpre : pre <+: s.trace) : (loggers pre).Nodup :=
  List.nodup_iff_count_le_one.2 fun k =>
    (count_loggers pre k).trans_le ((entriesOf_mono hpre).trans (one_entry hcap h k))

/-- Request `k` was answered as its record tells. The record of an empty file counts the
file, its answer does not. -/
structure Recorded (tr : List (Event n)) (es : List Request) (k : Nat) (r : Record) : Prop where
  arrived : ∃ req, es[k]? = some req ∧ r.arrival = req.arrivalTime
  answered : (∃ lines body, Front (okLines ++ lines) ∧
      response (okLines ++ lines) r.stats r.arrival r.dispatch body <+: sentTo tr k) ∨
    ∃ lines body, Front (str "HTTP/1.0 403 Forbidden" :: lines) ∧
      response (str "HTTP/1.0 403 Forbidden" :: lines)
        { r.stats with statReq := r.stats.statReq - 1 } r.arrival r.dispatch body <+: sentTo tr k

theorem entry_statsBlock (r : Record) : r.entry = statsBlock r.stats r.arrival r.dispatch := by
  rw [entry_eq, List.append_nil]
  rfl

theorem entry_length (h : Numbers r.stats r.arrival r.dispatch) : r.entry.length < 2 ^ 31 := by
  have hlen := appendStats_length h []
  rw [List.length_nil] at hlen
  exact lt_of_le_of_lt hlen (by decide)

theorem reply_counted {reply : Reply} {stats : ThreadsStats} {arrival dispatch : Timeval}
    (os : Segel.Os) (h : reply.entries stats arrival dispatch = [dst]) : ∃ counted : ThreadsStats,
      dst = statsBlock counted arrival dispatch ∧
      ((∃ lines, reply.lines os = okLines ++ lines ∧ reply.count stats = counted) ∨
      ∃ lines, reply.lines os = str "HTTP/1.0 403 Forbidden" :: lines ∧
        reply.count stats = { counted with statReq := counted.statReq - 1 }) := by
  cases reply with
  | error | log => cases h
  | file filename size =>
      rw [Reply.entries] at h
      obtain rfl := List.singleton_inj.1 h
      exact ⟨_, rfl, .inl ⟨_, by rw [Reply.lines, contentLines], rfl⟩⟩
  | program filename cgiargs =>
      rw [Reply.entries] at h
      obtain rfl := List.singleton_inj.1 h
      exact ⟨_, rfl, .inl ⟨[], by rw [Reply.lines, List.append_nil], rfl⟩⟩
  | emptyFile filename =>
      rw [Reply.entries] at h
      obtain rfl := List.singleton_inj.1 h
      have hstatus : str "HTTP/1.0 " ++ str "403" ++ str " " ++ str "Forbidden" =
          str "HTTP/1.0 403 Forbidden" := by decide
      refine ⟨_, rfl, .inr ⟨_, by rw [Reply.lines, errorLines, hstatus], ?_⟩⟩
      rw [Reply.count, Reply.count, Int.add_sub_cancel]

theorem reply_front {reply : Reply} (h : t.reply ψ = some reply) : Front (reply.lines ψ.os) := by
  obtain ⟨l, -, he⟩ := Option.bind_eq_some_iff.1 h
  split at he
  · cases he
  · obtain rfl := Option.some.inj he
    exact answer_front _ _

theorem record_of_entries (h : t.entries ψ = [dst]) : ∃ r : Record, dst = r.entry ∧
    r.arrival = t.arrival ∧
    ((∃ lines body, Front (okLines ++ lines) ∧
      t.message ψ = response (okLines ++ lines) r.stats r.arrival r.dispatch body) ∨
    ∃ lines body, Front (str "HTTP/1.0 403 Forbidden" :: lines) ∧
      t.message ψ = response (str "HTTP/1.0 403 Forbidden" :: lines)
        { r.stats with statReq := r.stats.statReq - 1 } r.arrival r.dispatch body) := by
  rw [Task.entries] at h
  rw [Task.message]
  cases hreply : t.reply ψ with
  | none =>
      rw [hreply] at h
      cases h
  | some reply =>
      rw [hreply] at h
      have hfront := reply_front hreply
      obtain ⟨counted, rfl, hlines⟩ := reply_counted ψ.os h
      have hentry := entry_statsBlock ⟨counted, t.arrival, t.dispatch⟩
      refine ⟨⟨counted, t.arrival, t.dispatch⟩, hentry.symm, rfl, ?_⟩
      rcases hlines with ⟨lines, hlines, hcount⟩ | ⟨lines, hlines, hcount⟩
      · exact .inl ⟨lines, _, hlines ▸ hfront, by dsimp only; rw [hlines, hcount]⟩
      · exact .inr ⟨lines, _, hlines ▸ hfront, by dsimp only; rw [hlines, hcount]⟩

theorem stored_small (h : dst.length < 2 ^ 31) (he : e ∈ stored dst dst.length) : e = dst := by
  rw [stored, int32_small h, Int.toNat_natCast, List.take_length] at he
  split at he
  · exact List.mem_singleton.1 he
  · cases he

theorem entry_recorded (hcap : 1 ≤ cap)
    (h : Happens (start n junk cap byte listenfd) pre (.logged k e) es)
    (htr : pre ++ [.logged k e] <+: tr) : ∃ r : Record,
      (r.entry.length < 2 ^ 31 → e = r.entry) ∧ Recorded tr es k r := by
  obtain ⟨s, s', hr, hr', hc, rfl, he, hes⟩ := h
  cases hc with
  | @logged μ i c e' hm unread =>
      obtain ⟨rfl, rfl⟩ : s.serving i = k ∧ e' = e := by simpa using he
      obtain ⟨bs, len, f, hrest⟩ : ∃ bs len f, s.rest i = some (.call (.addToLog bs len) f) := by
        have hdoing := atLog_reachable hr i
        rwa [hm.old] at hdoing
      obtain ⟨W, hW⟩ := records_reachable hcap hr'
      obtain ⟨hgoing, harrived⟩ := hW.going i _ hrest
      obtain ⟨req, hreq, harrival⟩ := harrived.mono hes
      obtain ⟨hsent, hlogged, hentries, rfl⟩ := hgoing.follows.1 hgoing.usual
      obtain ⟨r, rfl, hrarrival, hmessage⟩ := record_of_entries hentries
      have hshows := hW.shows (s.serving i)
      have hmem : e' ∈ entriesOf (s.trace ++ [.logged (s.serving i) e']) (s.serving i) :=
        mem_entriesOf.2 (by simp)
      rw [hshows.logged, hlogged, List.nil_append] at hmem
      have hwritten : e' ∈ stored r.entry r.entry.length := by
        rcases hgoing.passing.cases_on_written with hnone | ⟨bs, len, f', hcall, hwritten⟩
        · rw [hnone] at hmem
          cases hmem
        · cases hcall
          rwa [hwritten] at hmem
      have hall := (hsent ▸ hshows.sent).trans (sentTo_mono htr _)
      refine ⟨r, fun hlt => stored_small hlt hwritten,
        ⟨req, hreq, hrarrival.trans harrival⟩, ?_⟩
      rcases hmessage with ⟨lines, body, hfront, hm⟩ | ⟨lines, body, hfront, hm⟩
      · exact .inl ⟨lines, body, hfront, hm ▸ hall⟩
      · exact .inr ⟨lines, body, hfront, hm ▸ hall⟩
  | _ => simp [System.goOn] at he

theorem recorded (hcap : 1 ≤ cap) (h : Reachable (start n junk cap byte listenfd) s) (k : Nat) :
    ∃ r : Record, ∀ e, .logged k e ∈ s.trace →
      (r.entry.length < 2 ^ 31 → e = r.entry) ∧ Recorded s.trace s.enqueued k r := by
  by_cases hk : ∃ e, .logged k e ∈ s.trace
  · obtain ⟨e, he⟩ := hk
    obtain ⟨before, after, hsplit⟩ := List.append_of_mem he
    have hprefix : before ++ [.logged k e] <+: s.trace := ⟨after, by rw [hsplit]; simp⟩
    obtain ⟨r, hr, hrecorded⟩ := entry_recorded hcap (happens_of_trace h _ _ _ hsplit) hprefix
    refine ⟨r, fun e' he' => ?_⟩
    obtain rfl : e = e' := by
      have hone := one_entry hcap h k
      have hfirst := mem_entriesOf.2 he
      have hsecond := mem_entriesOf.2 he'
      obtain ⟨x, hx⟩ := List.length_eq_one_iff.1 (hone.antisymm (List.length_pos_of_mem hfirst))
      rw [hx, List.mem_singleton] at hfirst hsecond
      exact hfirst.trans hsecond.symm
    exact ⟨hr, hrecorded⟩
  · exact ⟨⟨⟨0, 0, 0, 0, 0⟩, ⟨0, 0⟩, ⟨0, 0⟩⟩, fun e he => absurd ⟨e, he⟩ hk⟩

/-- The answer to a POST has for its body the log as it was when the request began to read
it, which tells the records of different requests, each of them as it was answered, and
among them all whose calls had returned when the POST came. -/
theorem post_tells (hcap : 1 ≤ cap) (h : Reachable (start n junk cap byte listenfd) s)
    (hp : .returned p i ∈ s.trace) (hgp : .got p m dst ∈ s.trace) :
    ∃ (log : Bytes) (ks : List Nat) (R : Nat → Record), ReadAs s.trace p log ∧
      Shown s.trace p log ∧ ks.Nodup ∧
      (∀ k ∈ ks, Recorded s.trace s.enqueued k (R k)) ∧
      (∀ pre connfd post, s.trace = pre ++ .accepted p connfd :: post →
        ∀ k l, .returned k l ∈ pre → entriesOf s.trace k ≠ [] → k ∈ ks) ∧
      ((∀ k ∈ ks, (R k).Proper ∧ Numbers (R k).stats (R k).arrival (R k).dispatch) →
        readLog log = some (ks.map R)) := by
  obtain ⟨log, ⟨pre, post, htr, rfl⟩, hshown⟩ := posted_body hcap h hp hgp
  have hreads : ReadAs s.trace p (logIn pre) := ⟨pre, post, htr, rfl⟩
  have hpre : pre <+: s.trace := ⟨_, htr.symm⟩
  choose R hR using recorded hcap h
  refine ⟨logIn pre, loggers pre, R, hreads, hshown, loggers_nodup hcap h hpre, fun k hk => ?_,
    fun before connfd after haccepted k l hreturned hentries => ?_, fun hproper => ?_⟩
  · obtain ⟨e, he⟩ := mem_loggers.1 hk
    exact (hR k e (hpre.subset he)).2
  · obtain ⟨e, he⟩ := List.exists_mem_of_ne_nil _ hentries
    have hbefore := logged_before hcap h haccepted hreturned (mem_entriesOf.1 he)
    exact mem_loggers.2 ⟨e, (reads_after hcap h haccepted htr).subset hbefore⟩
  · have hlogged : loggedIn pre = (loggers pre).map fun k => (R k).entry := by
      refine loggedIn_eq fun k e he => (hR k e (hpre.subset he)).1 ?_
      exact entry_length (hproper k (mem_loggers.2 ⟨e, he⟩)).2
    have hall : ∀ r ∈ (loggers pre).map R, r.Proper := by
      intro r hr
      obtain ⟨k, hk, rfl⟩ := List.mem_map.1 hr
      exact (hproper k hk).1
    have hread := (readLog_entries hall).2
    rw [List.map_map] at hread
    rw [logIn, hlogged]
    exact hread

theorem post_tells_again : ∃ s : System 2,
    Reachable (start 2 (fun _ => ⟨0, 0, 0⟩) 2 (fun _ => 0) 3) s ∧
      ∃ (log : Bytes) (ks : List Nat) (R : Nat → Record), ReadAs s.trace 2 log ∧
        Shown s.trace 2 log ∧ ks.Nodup ∧ 0 ∈ ks ∧ Recorded s.trace s.enqueued 0 (R 0) ∧
        ((∀ k ∈ ks, (R k).Proper ∧ Numbers (R k).stats (R k).arrival (R k).dispatch) →
          readLog log = some (ks.map R)) := by
  obtain ⟨s, h, hend⟩ := replay_ends again_ends
  obtain ⟨-, -, hp, hgp, haccepted, -, hreturned, hne⟩ := of_decide_eq_true hend
  obtain ⟨post, htr⟩ := split_before haccepted
  obtain ⟨log, ks, R, hreads, hshown, hnodup, hrecorded, hall, hread⟩ :=
    post_tells (by decide) h hp hgp
  have hmem := hall _ _ post htr 0 0 hreturned hne
  exact ⟨s, h, log, ks, R, hreads, hshown, hnodup, hmem, hrecorded 0 hmem, hread⟩

end WebServer.LogRecords
