import WebServer.Sessions

namespace WebServer.Transcripts

open Message Process Segel RequestCalls
open Answers
open RequestHandle (Locals Target requestParseURI requestGetFiletype sscanf strcasecmp appendStats)
open RequestQueue (Timeval ThreadsStats)
open ServerLog (int32)

/-- What a worker calls `requestHandle` with, what that finds on its stack, and the fuel for
its header lines. -/
structure Task where
  fuel : Nat
  old : Locals
  arrival : Timeval
  dispatch : Timeval
  stats : ThreadsStats

def Task.blank : Task := ⟨0, ⟨[], [], [], [], [], 0, []⟩, ⟨0, 0⟩, ⟨0, 0⟩, ⟨0, 0, 0, 0, 0⟩⟩

/-- What the calls of a request have answered, and what it has sent and logged: `found` for
the name `asked`, and `srcp` for the file `opened`. `unusual` is set by an answer that the
system does not give. -/
structure Transcript where
  line : Option (Int × Bytes)
  hdrs : List Bytes
  asked : Bytes
  found : Option StatBuf
  opened : Bytes
  srcp : Bytes
  log : Option Bytes
  unusual : Bool
  forked : Bool
  sent : Bytes
  logged : List Bytes

def Transcript.new : Transcript := ⟨none, [], [], none, [], [], none, false, false, [], []⟩

/-- A system whose calls answer so; descriptor 3 is that of the file that was opened. -/
def Transcript.os (ψ : Transcript) : Os :=
  { Os.bare with
    stat := fun filename => if filename = ψ.asked then ψ.found else none
    openFd := fun filename => if filename = ψ.opened then some 3 else none
    content := fun fd => if fd = 3 then ψ.srcp else []
    log := ψ.log.getD [] }

def Task.reply (t : Task) (ψ : Transcript) : Option Reply :=
  ψ.line.bind fun l => if l.1 ≤ 0 then none else some (answer ψ.os (sscanf l.2 t.old))

/-- What is sent for it, apart from what a program writes. -/
def Task.message (t : Task) (ψ : Transcript) : Bytes :=
  match t.reply ψ with
  | some reply => response (reply.lines ψ.os) (reply.count t.stats) t.arrival t.dispatch
      (reply.body ψ.os [])
  | none => []

def Task.entries (t : Task) (ψ : Transcript) : List Bytes :=
  match t.reply ψ with
  | some reply => reply.entries t.stats t.arrival t.dispatch
  | none => []

def Task.counted (t : Task) (ψ : Transcript) : ThreadsStats :=
  match t.reply ψ with
  | some reply => reply.count t.stats
  | none => t.stats

def stored (data : Bytes) (len : Int) : List Bytes :=
  if 0 < int32 len then [data.take (int32 len).toNat] else []

def Whole (m : Int) (dst : Bytes) : Prop :=
  dst = dst.dropLast ++ [0] ∧ m = int32 dst.dropLast.length

instance (m : Int) (dst : Bytes) : Decidable (Whole m dst) := by unfold Whole; infer_instance

theorem whole_concat (log : Bytes) : Whole (int32 log.length) (log ++ [0]) := by
  rw [Whole, List.dropLast_concat]
  exact ⟨rfl, rfl⟩

def Transcript.next (ψ : Transcript) : (c : Call) → c.Answer → Transcript
  | .rioReadlineb _ _ _, r => { ψ with
      line := ψ.line.or (some (r.1, r.2.1))
      hdrs := if ψ.line.isSome then ψ.hdrs ++ [r.2.1] else ψ.hdrs }
  | .rioWriten usrbuf n, _ => { ψ with sent := ψ.sent ++ usrbuf.take n }
  | .stat filename, sbuf => { ψ with asked := filename, found := sbuf }
  | .openFile pathname, fd => { ψ with
      opened := pathname, unusual := ψ.unusual || decide ((show Int from fd) < 0) }
  | .mmap _ _, srcp => match (srcp : Option Bytes) with
    | some srcp => { ψ with srcp := srcp }
    | none => { ψ with unusual := true }
  | .fork _ _, _ => { ψ with forked := true }
  | .getLog, r => { ψ with
      log := some (r.2 : Bytes).dropLast, unusual := ψ.unusual || !decide (Whole r.1 r.2) }
  | .addToLog data len, _ => { ψ with logged := ψ.logged ++ stored data len }
  | _, _ => ψ

theorem next_openFile (ψ : Transcript) (pathname : Bytes) (fd : Int) :
    (ψ.next (.openFile pathname) fd).unusual = (ψ.unusual || decide (fd < 0)) := rfl

theorem next_getLog (ψ : Transcript) (m : Int) (dst : Bytes) :
    (ψ.next .getLog (m, dst)).unusual = (ψ.unusual || !decide (Whole m dst)) := rfl

structure Transcript.Fresh (ψ : Transcript) : Prop where
  sent : ψ.sent = []
  logged : ψ.logged = []
  forked : ψ.forked = false

/-- The answers come before the first byte is sent. What is sent is a part of the
message, and a program is run or an entry logged once that is sent. -/
def Task.Allows (t : Task) (ψ : Transcript) : Call → Prop
  | .rioReadlineb _ _ _ | .stat _ | .openFile _ | .mmap _ _ | .getLog => ψ.Fresh
  | .rioWriten usrbuf n => ψ.forked = false ∧ ψ.sent ++ usrbuf.take n <+: t.message ψ
  | .fork cgiargs filename =>
      ψ.sent = t.message ψ ∧ t.reply ψ = some (.program filename cgiargs)
  | .addToLog data len =>
      ψ.sent = t.message ψ ∧ ψ.logged = [] ∧ t.entries ψ = [data] ∧ len = data.length
  | _ => True

/-- More header lines have been read than the fuel is for, and they have not ended before. -/
structure Task.Endless (t : Task) (ψ : Transcript) : Prop where
  read : t.fuel < ψ.hdrs.length
  line : ∀ l ∈ ψ.hdrs.take t.fuel, l ≠ crlf

def Task.protocol (t : Task) : Protocol Call Call.Answer Transcript where
  allows ψ c := ψ.unusual = false → t.Allows ψ c
  next := Transcript.next
  sticks ψ := ψ.unusual = false → t.Endless ψ

structure Task.Over (t : Task) (stats : ThreadsStats) (ψ : Transcript) : Prop where
  sent : ψ.sent = t.message ψ
  logged : ψ.logged = (t.entries ψ).flatMap fun e => stored e e.length
  stats : stats = t.counted ψ
  log : t.reply ψ = some .log → ψ.log.isSome

structure Task.Partial (t : Task) (ψ : Transcript) : Prop where
  sent : ψ.sent <+: t.message ψ
  forked : ψ.forked = true → ψ.sent = t.message ψ ∧
    ∃ filename cgiargs, t.reply ψ = some (.program filename cgiargs)
  logged : ψ.logged <+: (t.entries ψ).flatMap fun e => stored e e.length

variable {t : Task} {ψ : Transcript} {α : Type} {x : Calls α} {reply : Reply}

theorem Transcript.Fresh.starts (h : ψ.Fresh) : t.Partial ψ where
  sent := h.sent ▸ List.nil_prefix
  forked hf := absurd (h.forked.symm.trans hf) (by decide)
  logged := h.logged ▸ List.nil_prefix

abbrev Task.Follows (t : Task) (x : Calls α) (ψ : Transcript) (Q : α → Transcript → Prop) : Prop :=
  Prog.Follows t.protocol (fun a ψ' => ψ'.unusual = false → Q a ψ') ψ x

theorem follows_unusual {Q : α → Transcript → Prop} (h : ψ.unusual = true) : t.Follows x ψ Q := by
  induction x generalizing ψ with
  | ret a | stuck => exact fun hu => absurd (h.symm.trans hu) (by decide)
  | call c k ih =>
      refine ⟨fun hu => absurd (h.symm.trans hu) (by decide), fun r => ih r ?_⟩
      cases c with
      | openFile | getLog => exact Bool.or_eq_true_iff.2 (.inl h)
      | mmap len fd =>
          cases r with
          | some srcp => exact h
          | none => rfl
      | _ => exact h

theorem Task.Follows.bind {β : Type} {f : α → Calls β} {Q : α → Transcript → Prop}
    {T : β → Transcript → Prop} (h : t.Follows x ψ Q)
    (hf : ∀ a ψ', Q a ψ' → t.Follows (f a) ψ' T) : t.Follows (x >>= f) ψ T := by
  refine Prog.Follows.bind h fun a ψ' hQ => ?_
  cases hu : ψ'.unusual with
  | true => exact follows_unusual hu
  | false => exact hf a ψ' (hQ hu)

theorem Task.Follows.mono {Q R : α → Transcript → Prop} (h : t.Follows x ψ Q)
    (hQ : ∀ a ψ', Q a ψ' → R a ψ') : t.Follows x ψ R :=
  Prog.Follows.mono h fun a ψ' hq hu => hQ a ψ' (hq hu)

theorem asks {c : Call} (h : t.Allows ψ c) : t.Follows (.ask c) ψ fun r ψ' => ψ' = ψ.next c r :=
  follows_ask (fun _ => h) fun _ _ => rfl

structure Task.Sent (t : Task) (reply : Reply) (ψ : Transcript) : Prop where
  reply : t.reply ψ = some reply
  sent : ψ.sent = t.message ψ
  logged : ψ.logged = []

theorem write_follows (bs : Bytes) (hforked : ψ.forked = false) (h : ψ.sent ++ bs <+: t.message ψ) :
    t.Follows (RioWriten bs bs.length) ψ fun _ ψ' => ψ' = { ψ with sent := ψ.sent ++ bs } := by
  have hall : bs.take bs.length = bs := List.take_length
  refine (asks (c := .rioWriten bs bs.length) ⟨hforked, by rwa [hall]⟩).mono fun _ ψ' hψ => ?_
  rw [hψ, Transcript.next, hall]

theorem printf_follows (bs : Bytes) : t.Follows (printf bs) ψ fun _ ψ' => ψ' = ψ :=
  asks (c := .printf bs) trivial

theorem requestError_follows {cause errnum shortmsg longmsg : Bytes} {stats : ThreadsStats}
    (h : ψ.Fresh) (hmsg : t.message ψ = response (errorLines errnum shortmsg
      (errorPage cause errnum shortmsg longmsg)) stats t.arrival t.dispatch
      (errorPage cause errnum shortmsg longmsg)) :
    t.Follows (requestError cause errnum shortmsg longmsg t.arrival t.dispatch stats) ψ
      fun _ ψ' => ψ' = { ψ with sent := t.message ψ } := by
  have hcrlf : str "\r\n" = crlf := by decide
  have htype : str "Content-Type: text/html\r\n" = str "Content-Type: text/html" ++ crlf := by
    decide
  simp only [requestError, ← errorPage.eq_1]
  generalize errorPage cause errnum shortmsg longmsg = page at hmsg ⊢
  have hlast := appendStats_render [str "Content-Length: " ++ decimal page.length] stats
    t.arrival t.dispatch
  rw [render, List.flatMap_singleton] at hlast
  have hsplit : t.message ψ = (str "HTTP/1.0 " ++ errnum ++ str " " ++ shortmsg ++ str "\r\n") ++
      (str "Content-Type: text/html\r\n" ++ (appendStats (str "Content-Length: " ++
        decimal page.length ++ str "\r\n") stats t.arrival t.dispatch ++ page)) := by
    rw [hcrlf, htype, hlast, hmsg]
    simp [response, errorLines, render]
  generalize str "HTTP/1.0 " ++ errnum ++ str " " ++ shortmsg ++ str "\r\n" = p₁ at hsplit ⊢
  generalize str "Content-Type: text/html\r\n" = p₂ at hsplit ⊢
  generalize appendStats _ _ _ _ = p₃ at hsplit ⊢
  have hall : p₁ ++ p₂ ++ p₃ ++ page = t.message ψ := by rw [hsplit]; simp
  have hmessage (bs : Bytes) : t.message { ψ with sent := bs } = t.message ψ := rfl
  refine (write_follows p₁ h.forked ?_).bind fun _ ψ₁ h₁ => ?_
  · rw [h.sent, hsplit]
    exact List.prefix_append _ _
  refine (printf_follows _).bind fun _ ψ₂ h₂ => ?_
  rw [h.sent, List.nil_append] at h₁
  subst h₁ h₂
  refine (write_follows p₂ (by exact h.forked) ?_).bind fun _ ψ₁ h₁ => ?_
  · rw [hmessage, ← hall]
    simp
  refine (printf_follows _).bind fun _ ψ₂ h₂ => ?_
  subst h₁ h₂
  refine (write_follows p₃ (by exact h.forked) ?_).bind fun _ ψ₁ h₁ => ?_
  · dsimp only
    rw [hmessage, ← hall]
    exact List.prefix_append _ _
  refine (printf_follows _).bind fun _ ψ₂ h₂ => ?_
  subst h₁ h₂
  refine (write_follows page (by exact h.forked) ?_).bind fun _ ψ₁ h₁ => ?_
  · dsimp only
    rw [hmessage, hall]
  subst h₁
  refine (printf_follows _).mono fun _ ψ₂ h₂ => ?_
  rw [h₂, ← hall]

theorem RioReadlineb_follows (usrbuf : Bytes) (rio : Rio) (maxlen : Nat) (h : ψ.Fresh)
    (hline : ψ.line.isSome) : t.Follows (RioReadlineb rio usrbuf maxlen) ψ
      fun r ψ' => ψ' = { ψ with hdrs := ψ.hdrs ++ [r.2.1] } := by
  refine (asks (c := .rioReadlineb rio usrbuf maxlen) h).mono fun _ ψ' hψ => ?_
  obtain ⟨l, hl⟩ := Option.isSome_iff_exists.1 hline
  rw [hψ, Transcript.next, hl, Option.some_or, ← hl, if_pos hline]

/-- `pre` are the lines that the loop has read before the one in its buffer. -/
theorem readhdrsLoop_follows {pre : List Bytes} (fuel : Nat) (buf : Bytes) (rio : Rio)
    (h : ψ.Fresh) (hline : ψ.line.isSome) (hhdrs : ψ.hdrs = pre ++ [buf])
    (hfuel : pre.length + fuel = t.fuel) (hpre : ∀ l ∈ pre, l ≠ crlf) :
    t.Follows (readhdrsLoop fuel buf rio) ψ fun _ ψ' => ∃ hdrs, ψ' = { ψ with hdrs := hdrs } := by
  induction fuel generalizing buf rio ψ pre with
  | zero =>
      refine fun _ => ⟨?_, ?_⟩
      · rw [hhdrs, ← hfuel, List.length_append]
        exact Nat.lt_succ_self _
      · rw [hhdrs, ← hfuel, Nat.add_zero, List.take_left]
        exact hpre
  | succ fuel ih =>
      rw [readhdrsLoop]
      by_cases hend : buf = crlf
      · rw [if_pos hend]
        exact fun _ => ⟨ψ.hdrs, rfl⟩
      · rw [if_neg hend]
        refine (RioReadlineb_follows _ _ _ h hline).bind fun r ψ₁ h₁ => ?_
        subst h₁
        have hnext := @ih { ψ with hdrs := ψ.hdrs ++ [r.2.1] } (pre ++ [buf]) r.2.1 r.2.2
          ⟨h.sent, h.logged, h.forked⟩ hline (by dsimp only; rw [hhdrs])
          (by rw [List.length_append, List.length_singleton]; omega)
          fun l hl => (List.mem_append.1 hl).elim (hpre l) fun hl => by
            obtain rfl := List.mem_singleton.1 hl
            exact hend
        exact hnext

theorem requestReadhdrs_follows (stale : Bytes) (rio : Rio) (h : ψ.Fresh)
    (hline : ψ.line.isSome) (hhdrs : ψ.hdrs = []) :
    t.Follows (requestReadhdrs t.fuel stale rio) ψ
      fun _ ψ' => ∃ hdrs, ψ' = { ψ with hdrs := hdrs } := by
  rw [requestReadhdrs]
  refine (RioReadlineb_follows _ _ _ h hline).bind fun r ψ₁ h₁ => ?_
  subst h₁
  have hloop := @readhdrsLoop_follows t { ψ with hdrs := ψ.hdrs ++ [r.2.1] } [] t.fuel r.2.1 r.2.2
    ⟨h.sent, h.logged, h.forked⟩ hline (by dsimp only; rw [hhdrs]) (Nat.zero_add _)
    (List.forall_mem_nil _)
  exact hloop

theorem message_of (h : t.reply ψ = some reply) :
    t.message ψ = response (reply.lines ψ.os) (reply.count t.stats) t.arrival t.dispatch
      (reply.body ψ.os []) := by
  rw [Task.message, h]

theorem entries_of (h : t.reply ψ = some reply) :
    t.entries ψ = reply.entries t.stats t.arrival t.dispatch := by
  rw [Task.entries, h]

theorem counted_of (h : t.reply ψ = some reply) : t.counted ψ = reply.count t.stats := by
  rw [Task.counted, h]

theorem error_sent {cause errnum shortmsg longmsg : Bytes} (h : ψ.Fresh)
    (hreply : t.reply ψ = some (.error cause errnum shortmsg longmsg)) :
    t.Follows (requestError cause errnum shortmsg longmsg t.arrival t.dispatch
        (Reply.count t.stats (.error cause errnum shortmsg longmsg))) ψ
      fun _ ψ' => t.Sent (.error cause errnum shortmsg longmsg) ψ' := by
  refine (requestError_follows h (message_of hreply)).mono fun _ ψ' hψ => ?_
  rw [hψ]
  exact ⟨hreply, rfl, h.logged⟩

theorem requestServeDynamic_follows {filename cgiargs : Bytes} (h : ψ.Fresh)
    (hreply : t.reply ψ = some (.program filename cgiargs)) :
    t.Follows (requestServeDynamic filename cgiargs t.arrival t.dispatch
        (Reply.count t.stats (.program filename cgiargs))) ψ
      fun _ ψ' => t.Sent (.program filename cgiargs) ψ' := by
  have hmsg : appendStats (render okLines) (Reply.count t.stats (.program filename cgiargs))
      t.arrival t.dispatch = t.message ψ := by
    rw [appendStats_render, message_of hreply]
    exact (List.append_nil _).symm
  rw [requestServeDynamic]
  simp only [okLines_render, hmsg]
  refine (write_follows _ h.forked ?_).bind fun _ ψ₁ h₁ => ?_
  · rw [h.sent]
    exact List.prefix_rfl
  rw [h.sent, List.nil_append] at h₁
  subst h₁
  refine (asks (c := .fork cgiargs filename) (by exact ⟨rfl, hreply⟩)).bind fun pid ψ₂ h₂ => ?_
  subst h₂
  refine (asks (c := .waitPid pid) trivial).mono fun _ ψ₃ h₃ => ?_
  rw [h₃]
  exact ⟨hreply, rfl, h.logged⟩

theorem file_follows {filename : Bytes} {filesize : Int} (h : ψ.Fresh)
    (hopened : ψ.opened = filename) (hreply : t.reply ψ = some (.file filename filesize)) :
    t.Follows (do
      let buf := appendStats (render (contentLines filesize (requestGetFiletype filename)))
        (Reply.count t.stats (.file filename filesize)) t.arrival t.dispatch
      RioWriten buf buf.length
      RioWriten ψ.srcp filesize.toNat
      Munmap
      return Reply.count t.stats (.file filename filesize)) ψ
      fun stats ψ' => stats = t.counted ψ' ∧ t.Sent (.file filename filesize) ψ' := by
  have hmsg : t.message ψ =
      appendStats (render (contentLines filesize (requestGetFiletype filename)))
        (Reply.count t.stats (.file filename filesize)) t.arrival t.dispatch ++
          ψ.srcp.take filesize.toNat := by
    have hbody : Reply.body ψ.os [] (.file filename filesize) = ψ.srcp.take filesize.toNat := by
      simp [Reply.body, Transcript.os, Os.mapped, Os.bare, hopened]
    rw [appendStats_render, message_of hreply, hbody]
    rfl
  generalize appendStats _ _ _ _ = header at hmsg ⊢
  refine (write_follows header h.forked ?_).bind fun _ ψ₁ h₁ => ?_
  · rw [h.sent, hmsg]
    exact List.prefix_append _ _
  rw [h.sent, List.nil_append] at h₁
  subst h₁
  refine (asks (c := .rioWriten ψ.srcp filesize.toNat) ?_).bind fun _ ψ₂ h₂ => ?_
  · refine ⟨h.forked, ?_⟩
    rw [show t.message { ψ with sent := header } = t.message ψ from rfl, hmsg]
  subst h₂
  refine (asks (c := .munmap) trivial).bind fun _ ψ₃ h₃ => ?_
  subst h₃
  exact fun _ => ⟨(counted_of (by exact hreply)).symm, hreply, hmsg.symm, h.logged⟩

theorem requestServeStatic_follows {filename : Bytes} {filesize : Int} (h : ψ.Fresh)
    (hreply : t.reply ψ = some
      (if filesize = 0 then .emptyFile filename else .file filename filesize)) :
    t.Follows (requestServeStatic filename filesize t.arrival t.dispatch
        (Reply.count t.stats (.file filename filesize))) ψ
      fun stats ψ' => stats = t.counted ψ' ∧
        t.Sent (if filesize = 0 then .emptyFile filename else .file filename filesize) ψ' := by
  rw [requestServeStatic]
  refine (asks (c := .openFile filename) h).bind fun srcfd ψ₁ h₁ => ?_
  change Int at srcfd
  by_cases hfd : srcfd < 0
  · apply follows_unusual
    rw [h₁, next_openFile, decide_eq_true hfd, Bool.or_true]
  have hfresh₁ : ψ₁.Fresh := by rw [h₁]; exact ⟨h.sent, h.logged, h.forked⟩
  have hopened₁ : ψ₁.opened = filename := by rw [h₁]; rfl
  have hreply₁ : t.reply ψ₁ =
      some (if filesize = 0 then .emptyFile filename else .file filename filesize) := by
    rw [h₁, ← hreply]; rfl
  rw [if_neg hfd]
  by_cases hsize : filesize = 0
  · rw [if_pos hsize] at hreply₁ ⊢
    rw [if_pos hsize]
    refine (asks (c := .close srcfd) trivial).bind fun _ ψ₂ h₂ => ?_
    obtain rfl : ψ₂ = ψ₁ := h₂
    have hcounted : { Reply.count t.stats (.file filename filesize) with
        statReq := (Reply.count t.stats (.file filename filesize)).statReq - 1 } =
          Reply.count t.stats (.emptyFile filename) := by simp [Reply.count]
    rw [hcounted]
    refine (requestError_follows hfresh₁ (message_of hreply₁)).bind fun _ ψ₃ h₃ => ?_
    subst h₃
    exact fun _ => ⟨(counted_of (by exact hreply₁)).symm, hreply₁, rfl, hfresh₁.logged⟩
  · rw [if_neg hsize] at hreply₁ ⊢
    rw [if_neg hsize]
    refine (asks (c := .mmap filesize srcfd) hfresh₁).bind fun srcp ψ₂ h₂ => ?_
    change Option Bytes at srcp
    cases srcp with
    | none =>
        apply follows_unusual
        rw [h₂]
        rfl
    | some srcp =>
        have hsrcp : ψ₂.srcp = srcp := by rw [h₂]; rfl
        have hfresh₂ : ψ₂.Fresh := by rw [h₂]; exact ⟨hfresh₁.sent, hfresh₁.logged, hfresh₁.forked⟩
        have hopened₂ : ψ₂.opened = filename := by rw [h₂]; exact hopened₁
        have hreply₂ : t.reply ψ₂ = some (.file filename filesize) := by rw [h₂]; exact hreply₁
        refine (asks (c := .close srcfd) trivial).bind fun _ ψ₃ h₃ => ?_
        obtain rfl : ψ₃ = ψ₂ := h₃
        subst hsrcp
        simp only [contentLines_render]
        exact file_follows hfresh₂ hopened₂ hreply₂

theorem requestServePost_follows (h : ψ.Fresh) (hreply : t.reply ψ = some .log) :
    t.Follows (requestServePost t.arrival t.dispatch (Reply.count t.stats .log)) ψ
      fun _ ψ' => t.Sent .log ψ' ∧ ψ'.log.isSome := by
  rw [requestServePost]
  refine (asks (c := .getLog) h).bind fun r ψ₁ h₁ => ?_
  obtain ⟨m, dst⟩ : Int × Bytes := r
  dsimp only
  by_cases hwhole : Whole m dst
  · have hfresh₁ : ψ₁.Fresh := by rw [h₁]; exact ⟨h.sent, h.logged, h.forked⟩
    have hreply₁ : t.reply ψ₁ = some .log := by rw [h₁]; exact hreply
    have hlog : ψ₁.log = some dst.dropLast := by rw [h₁]; rfl
    have hmsg : t.message ψ₁ = appendStats (render (contentLines m (str "text/plain")))
        (Reply.count t.stats .log) t.arrival t.dispatch ++ dst.take (m % 2 ^ 64).toNat := by
      have hos : ψ₁.os.log = dst.dropLast := by rw [Transcript.os, hlog]; rfl
      rw [appendStats_render, message_of hreply₁, Reply.lines, Reply.body, hos, ← hwhole.1,
        ← hwhole.2]
      rfl
    simp only [contentLines_render]
    generalize (m % 2 ^ 64).toNat = len at hmsg ⊢
    generalize appendStats _ _ _ _ = header at hmsg ⊢
    refine (write_follows header hfresh₁.forked ?_).bind fun _ ψ₂ h₂ => ?_
    · rw [hfresh₁.sent, hmsg]
      exact List.prefix_append _ _
    rw [hfresh₁.sent, List.nil_append] at h₂
    subst h₂
    refine (asks (c := .rioWriten dst len) ?_).mono fun _ ψ₃ h₃ => ?_
    · refine ⟨hfresh₁.forked, ?_⟩
      rw [show t.message { ψ₁ with sent := header } = t.message ψ₁ from rfl, hmsg]
    subst h₃
    exact ⟨⟨hreply₁, hmsg.symm, hfresh₁.logged⟩, by rw [show _ = ψ₁.log from rfl, hlog]; rfl⟩
  · apply follows_unusual
    rw [h₁, next_getLog, decide_eq_false hwhole, Bool.not_false, Bool.or_true]

theorem reply_logged (l : List Bytes) : t.reply { ψ with logged := l } = t.reply ψ := rfl

theorem message_logged (l : List Bytes) : t.message { ψ with logged := l } = t.message ψ := rfl

theorem entries_logged (l : List Bytes) : t.entries { ψ with logged := l } = t.entries ψ := rfl

theorem counted_logged (l : List Bytes) : t.counted { ψ with logged := l } = t.counted ψ := rfl

theorem addToLog_follows {stats counted : ThreadsStats} (h : t.Sent reply ψ)
    (hentries : reply.entries t.stats t.arrival t.dispatch =
      [statsBlock counted t.arrival t.dispatch])
    (hstats : stats = t.counted ψ) (hlog : reply ≠ .log) : t.Follows (do
      addToLog (statsBlock counted t.arrival t.dispatch)
        (statsBlock counted t.arrival t.dispatch).length
      return stats) ψ t.Over := by
  have hall := (entries_of h.reply).trans hentries
  generalize statsBlock counted t.arrival t.dispatch = data at hall ⊢
  refine (asks (c := .addToLog data data.length) ⟨h.sent, h.logged, hall, rfl⟩).bind
    fun _ ψ₁ h₁ => fun _ => ?_
  have hψ : ψ₁ = { ψ with logged := stored data data.length } := by
    rw [h₁, Transcript.next, h.logged, List.nil_append]
  generalize hl : stored data data.length = l at hψ
  subst hψ
  constructor
  · rw [message_logged]
    exact h.sent
  · rw [entries_logged, hall, List.flatMap_singleton, hl]
  · rw [counted_logged]
    exact hstats
  · rw [reply_logged, h.reply, Option.some.injEq]
    exact fun hr => absurd hr hlog

theorem error_over {cause errnum shortmsg longmsg : Bytes} (h : ψ.Fresh)
    (hreply : t.reply ψ = some (.error cause errnum shortmsg longmsg)) : t.Follows (do
      requestError cause errnum shortmsg longmsg t.arrival t.dispatch
        { t.stats with totalReq := t.stats.totalReq + 1 }
      return { t.stats with totalReq := t.stats.totalReq + 1 }) ψ t.Over := by
  refine (error_sent h hreply).bind fun _ ψ₁ h₁ => fun _ => ?_
  refine ⟨h₁.sent, ?_, (counted_of h₁.reply).symm, fun hr => ?_⟩
  · rw [h₁.logged, entries_of h₁.reply]
    rfl
  · cases h₁.reply.symm.trans hr

theorem requestGet_follows {target : Target} (h : ψ.Fresh)
    (hreply : ∀ found, t.reply { ψ with asked := target.filename, found := found } =
      some (answerGet { ψ with asked := target.filename, found := found : Transcript }.os target)) :
    t.Follows (requestGet target t.arrival t.dispatch
      { t.stats with totalReq := t.stats.totalReq + 1 }) ψ t.Over := by
  rw [requestGet]
  refine (asks (c := .stat target.filename) h).bind fun found ψ₁ h₁ => ?_
  change Option StatBuf at found
  have hfresh₁ : ψ₁.Fresh := by rw [h₁]; exact ⟨h.sent, h.logged, h.forked⟩
  have hreply₁ : t.reply ψ₁ = some (answerGet ψ₁.os target) := by rw [h₁]; exact hreply found
  have hfound : ψ₁.os.stat target.filename = found := by
    rw [h₁]
    exact if_pos rfl
  rw [answerGet, hfound] at hreply₁
  cases found with
  | none => exact error_over hfresh₁ hreply₁
  | some sbuf =>
      dsimp only at hreply₁ ⊢
      by_cases hstatic : target.isStatic = true
      · rw [if_pos hstatic] at hreply₁ ⊢
        by_cases hmode : ¬ sbuf.isReg = true ∨ ¬ sbuf.irusr = true
        · rw [if_pos hmode] at hreply₁ ⊢
          exact error_over hfresh₁ hreply₁
        · rw [if_neg hmode] at hreply₁ ⊢
          have hreply₁ : t.reply ψ₁ = some (if int32 sbuf.size = 0 then .emptyFile target.filename
              else .file target.filename (int32 sbuf.size)) := by
            rw [hreply₁]
          simp only [statsBlock_eq]
          refine (requestServeStatic_follows hfresh₁ hreply₁).bind fun stats ψ₂ h₂ => ?_
          refine addToLog_follows h₂.2 ?_ h₂.1 ?_
          · split <;> rfl
          · split <;> simp
      · rw [if_neg hstatic] at hreply₁ ⊢
        by_cases hmode : ¬ sbuf.isReg = true ∨ ¬ sbuf.ixusr = true
        · rw [if_pos hmode] at hreply₁ ⊢
          exact error_over hfresh₁ hreply₁
        · rw [if_neg hmode] at hreply₁ ⊢
          simp only [statsBlock_eq]
          refine (requestServeDynamic_follows hfresh₁ hreply₁).bind fun _ ψ₂ h₂ => ?_
          exact addToLog_follows h₂ rfl (counted_of h₂.reply).symm (by simp)

/-- A request sends the message for its reply and logs the entries for it. -/
theorem requestHandle_follows (t : Task) (buf : Bytes) :
    t.Follows (requestHandle t.fuel buf t.old t.arrival t.dispatch t.stats) .new t.Over := by
  rw [requestHandle]
  refine (asks (c := .rioReadlineb rioReadinitb buf MAXLINE) ⟨rfl, rfl, rfl⟩).bind fun r ψ h => ?_
  obtain ⟨n, line, rio⟩ : Int × Bytes × Rio := r
  have hfresh : ψ.Fresh := by rw [h]; exact ⟨rfl, rfl, rfl⟩
  have hline : ψ.line = some (n, line) := by rw [h]; rfl
  have hhdrs : ψ.hdrs = [] := by rw [h]; rfl
  dsimp only
  by_cases hn : n ≤ 0
  · rw [if_pos hn]
    have hreply : t.reply ψ = none := by simp [Task.reply, hline, hn]
    refine fun _ => ⟨?_, ?_, ?_, fun hr => ?_⟩
    · rw [Task.message, hreply, hfresh.sent]
    · rw [Task.entries, hreply, hfresh.logged]
      rfl
    · rw [Task.counted, hreply]
    · rw [hreply] at hr
      cases hr
  · rw [if_neg hn]
    have hreply : t.reply ψ = some (answer ψ.os (sscanf line t.old)) := by
      simp [Task.reply, hline, hn]
    have hget : isGet (sscanf line t.old) = strcasecmp (sscanf line t.old).method (str "GET") := rfl
    rw [answer, hget] at hreply
    by_cases hisget : strcasecmp (sscanf line t.old).method (str "GET") = true
    · rw [if_pos hisget]
      refine (requestReadhdrs_follows _ _ hfresh (by rw [hline]; rfl) hhdrs).bind fun _ ψ₁ h₁ => ?_
      obtain ⟨hdrs, rfl⟩ := h₁
      refine requestGet_follows ⟨hfresh.sent, hfresh.logged, hfresh.forked⟩ fun found => ?_
      rw [Task.reply]
      dsimp only
      rw [hline]
      simp [hn, answer, hget, hisget]
    · rw [if_neg hisget] at hreply ⊢
      by_cases hpost : strcasecmp (sscanf line t.old).method (str "POST") = true
      · rw [if_pos hpost] at hreply ⊢
        refine (requestServePost_follows hfresh hreply).bind fun _ ψ₁ h₁ => fun _ => ?_
        refine ⟨h₁.1.sent, ?_, (counted_of h₁.1.reply).symm, fun _ => h₁.2⟩
        rw [h₁.1.logged, entries_of h₁.1.reply]
        rfl
      · rw [if_neg hpost] at hreply ⊢
        exact error_over hfresh hreply

theorem Task.Partial.wrote (h : t.Partial ψ) {usrbuf : Bytes} {m : Nat}
    (hc : t.Allows ψ (.rioWriten usrbuf m)) {j : Nat} (hj : j ≤ m) :
    t.Partial { ψ with sent := ψ.sent ++ usrbuf.take j } where
  sent := by
    have hp : usrbuf.take j <+: usrbuf.take m := List.take_prefix_take_left hj
    exact ((List.prefix_append_right_inj ψ.sent).2 hp).trans hc.2
  forked hf := absurd (hc.1.symm.trans hf) (by decide)
  logged := h.logged

theorem Task.Partial.next (h : t.Partial ψ) {c : Call} (hc : t.Allows ψ c) (r : c.Answer) :
    t.Partial (ψ.next c r) := by
  cases c with
  | rioReadlineb | stat | openFile | getLog =>
      exact Transcript.Fresh.starts ⟨hc.sent, hc.logged, hc.forked⟩
  | mmap len fd =>
      cases r with
      | none | some srcp => exact Transcript.Fresh.starts ⟨hc.sent, hc.logged, hc.forked⟩
  | rioWriten usrbuf m => exact h.wrote hc le_rfl
  | fork cgiargs filename => exact ⟨h.sent, fun _ => ⟨hc.1, _, _, hc.2⟩, h.logged⟩
  | addToLog data len =>
      obtain ⟨hsent, hlogged, hentries, rfl⟩ := hc
      have hψ : ψ.next (.addToLog data data.length) r =
          { ψ with logged := stored data data.length } := by
        rw [Transcript.next, hlogged, List.nil_append]
      rw [hψ]
      generalize hl : stored data data.length = l
      constructor
      · rw [message_logged]
        exact h.sent
      · rw [message_logged, reply_logged]
        exact h.forked
      · rw [entries_logged, hentries, List.flatMap_singleton, hl]
  | close | munmap | printf | waitPid => exact h

end WebServer.Transcripts
