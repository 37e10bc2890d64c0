import WebServer.Transcripts
import WebServer.Visibility

namespace WebServer.ServedRequests

open Monitor Message Process Segel RequestCalls Server Transcripts
open Connections Accounting RequestHistory LogReaders
open EndOfFile (mem_life)
open Visibility (entriesOf)
open RequestQueue (QueueState Tid ThreadsStats Request)
open ServerLog (LogState int32 AddPc)

def written : AddPc → Bool
  | .testWaiting | .signal | .broadcast | .unlock => true
  | _ => false

/-- At `p` a worker with `x` to do has written `w` since it has called `add_to_log`. -/
inductive Passing : ServerLog.Pc → Calls ThreadsStats → List Bytes → Prop
  | away {p x} (away : use p ≠ .adding) : Passing p x []
  | test {c bs m len k} (same : m.1 = int32 len) :
      Passing (.addTest c (some bs) m) (.call (.addToLog bs len) k) []
  | before {c e p bs len k} (entry : stored bs len = [e.bytes]) (before : written p = false) :
      Passing (.add c e p) (.call (.addToLog bs len) k) []
  | after {c e p bs len k} (entry : stored bs len = [e.bytes]) (after : written p = true) :
      Passing (.add c e p) (.call (.addToLog bs len) k) [e.bytes]
  | added {c bs len k} : Passing (.addRet c) (.call (.addToLog bs len) k) (stored bs len)

variable {n cap : Nat} {junk : Nat → Request} {byte : Nat → ServerLog.Byte} {listenfd : Int}
  {s s' : System n} {i : Fin n} {k : Nat} {tr : List (Event n)} {e : Event n} {ψ : Transcript}
  {t : Task} {x : Calls ThreadsStats} {p q : ServerLog.Pc} {w : List Bytes}

theorem Passing.nothing (h : Passing p x w) (hp : use p ≠ .adding) : w = [] := by
  cases h with
  | away => rfl
  | test | before | after | added => exact absurd rfl hp

theorem Passing.stays {c : Nat} {e : ServerLog.Entry} {a b : AddPc} (h : Passing (.add c e a) x w)
    (hb : written b = written a) : Passing (.add c e b) x w := by
  cases h with
  | away away => exact absurd rfl away
  | before entry before => exact .before entry (hb.trans before)
  | after entry after => exact .after entry (hb.trans after)

theorem Passing.writes {c : Nat} {e : ServerLog.Entry} (h : Passing (.add c e .clear) x w) :
    w = [] ∧ Passing (.add c e .testWaiting) x [e.bytes] := by
  cases h with
  | away away => exact absurd rfl away
  | before entry before => exact ⟨rfl, .after entry rfl⟩
  | after entry after => cases after

theorem Passing.leaves {c : Nat} {e : ServerLog.Entry} (h : Passing (.add c e .unlock) x w) :
    Passing (.addRet c) x w := by
  cases h with
  | away away => exact absurd rfl away
  | before entry before => cases before
  | after entry after => exact entry ▸ .added

theorem Passing.ignored {c : Nat} {data : Option Bytes} {m : ServerLog.CInt}
    (h : Passing (.addTest c data m) x w) (hm : data = none ∨ m.1 ≤ 0) :
    Passing (.addRet c) x w := by
  cases h with
  | away away => exact absurd rfl away
  | @test _ bs _ len k same =>
      have hlen : ¬ 0 < int32 len := by
        have := hm.resolve_left (by simp)
        omega
      have hnone : stored bs len = [] := if_neg hlen
      exact hnone ▸ .added

theorem Passing.enters {c : Nat} {bs : Bytes} {m : ServerLog.CInt}
    (h : Passing (.addTest c (some bs) m) x w) (hm : 0 < m.1) :
    Passing (.add c (.take bs m) .lock) x w := by
  cases h with
  | away away => exact absurd rfl away
  | @test _ _ _ len k same =>
      refine .before ?_ rfl
      rw [stored, ← same, if_pos hm]
      rfl

theorem Passing.cases_on_written (h : Passing p x w) :
    w = [] ∨ ∃ bs len k, x = .call (.addToLog bs len) k ∧ w = stored bs len := by
  cases h with
  | away | test | before => exact .inl rfl
  | after entry => exact .inr ⟨_, _, _, rfl, entry.symm⟩
  | added => exact .inr ⟨_, _, _, rfl, rfl⟩

theorem Passing.returns {c : Nat} {bs : Bytes} {len : Int} {k : Unit → Calls ThreadsStats}
    (h : Passing (.addRet c) (.call (.addToLog bs len) k) w) : w = stored bs len := by
  cases h with
  | away away => exact absurd rfl away
  | added => rfl

theorem Passing.edge {d d' : ServerLog.Shared} (h : Passing p x w) (hg : ServerLog.Edge d p q d')
    (hp : p ≠ .idle) (hq : q ≠ .idle) (hclear : ∀ c e, p ≠ .add c e .clear) : Passing q x w := by
  cases hg with
  | callGet | callAdd => exact absurd rfl hp
  | retGet | retAdd => exact absurd rfl hq
  | wrote c e => exact absurd rfl (hclear c e)
  | ignore c data m none => exact h.ignored none
  | accept c bs m pos => exact h.enters pos
  | writeUnlocked c e => exact h.leaves
  | writeLocked | writeCounted | writeHeld | writeFree | writeWoken | writeUncounted | writerSet
  | growing | fitting | doubled | enough | mallocked | writeFailed | oldCopied | oldDone | freed | bufferSet
  | capacitySet | entryStarts | byteWritten | entryDone | sizeAdded | terminated | writersWait
  | noneWaits | writeSignalled | writeBroadcast => exact h.stays rfl
  | _ => exact h.nothing (by simp [use]) ▸ .away (by simp [use])

/-- A request: what the worker called `requestHandle` with, the calls it has made, and
what `add_to_log` has written for a call that has not returned. -/
structure Record where
  task : Task
  made : Transcript
  written : List Bytes

def Record.fresh (t : Task) : Record := ⟨t, .new, []⟩

structure Shows (tr : List (Event n)) (k : Nat) (R : Record) : Prop where
  sent : R.made.sent <+: sentTo tr k
  alone : R.made.forked = false → sentTo tr k = R.made.sent ∧ ∀ pid, .forked k pid ∉ tr
  logged : entriesOf tr k = R.made.logged ++ R.written
  log : ∀ log ∈ R.made.log, ReadAs tr k log

def Arrived (es : List Request) (k : Nat) (t : Task) : Prop :=
  ∃ req, es[k]? = some req ∧ t.arrival = req.arrivalTime

structure Going (p : ServerLog.Pc) (x : Calls ThreadsStats) (R : Record) : Prop where
  follows : R.task.Follows x R.made R.task.Over
  usual : R.made.unusual = false
  passing : Passing p x R.written

theorem Going.entries (h : Going p x R) (hpart : R.task.Partial R.made) :
    R.made.logged ++ R.written <+: (R.task.entries R.made).flatMap fun e => stored e e.length := by
  rcases h.passing.cases_on_written with hw | ⟨bs, len, k, rfl, hw⟩
  · rw [hw, List.append_nil]
    exact hpart.logged
  · obtain ⟨-, hlogged, hentries, rfl⟩ := h.follows.1 h.usual
    rw [hw, hlogged, hentries, List.nil_append, List.flatMap_singleton]

structure Record.Answered (R : Record) : Prop where
  ended : ∃ stats, R.task.Over stats R.made
  written : R.written = []

def Uncalled (serving : Fin n → Nat) (rest : Fin n → Option (Calls ThreadsStats))
    (tr : List (Event n)) (k : Nat) : Prop :=
  (∀ i, (rest i).isSome → serving i ≠ k) ∧ ∀ i, .returned k i ∉ tr

structure Records (places : Fin n → ServerLog.Pc) (es : List Request) (serving : Fin n → Nat)
    (rest : Fin n → Option (Calls ThreadsStats)) (tr : List (Event n)) (G : Nat → Record) :
    Prop where
  shows : ∀ k, Shows tr k (G k)
  part : ∀ k, (G k).task.Partial (G k).made
  uncalled : ∀ k, Uncalled serving rest tr k → (G k).made = .new ∧ (G k).written = []
  going : ∀ i x, rest i = some x → Going (places i) x (G (serving i)) ∧
    Arrived es (serving i) (G (serving i)).task
  answered : ∀ k i, .returned k i ∈ tr → (G k).Answered ∧ Arrived es k (G k).task

variable {R R' : Record} {places : Fin n → ServerLog.Pc} {es es' : List Request}
  {serving : Fin n → Nat} {rest : Fin n → Option (Calls ThreadsStats)} {tr' : List (Event n)}
  {G : Nat → Record}

theorem entriesOf_snoc (tr : List (Event n)) (k k' : Nat) (bytes : Bytes) :
    entriesOf (tr ++ [.logged k' bytes]) k = entriesOf tr k ++ if k' = k then [bytes] else [] := by
  by_cases hk : k' = k <;> simp [entriesOf, hk]

theorem entriesOf_other (he : ∀ bytes, e ≠ .logged k bytes) :
    entriesOf (tr ++ [e]) k = entriesOf tr k := by
  cases e with
  | logged k' bytes =>
      have hk : k' ≠ k := by
        rintro rfl
        exact he bytes rfl
      rw [entriesOf_snoc, if_neg hk, List.append_nil]
  | _ => simp [entriesOf]

theorem Shows.snoc (h : Shows tr k R) (he : about k e = false) (hl : ∀ bytes, e ≠ .logged k bytes) :
    Shows (tr ++ [e]) k R where
  sent := by
    rw [sentTo_other he]
    exact h.sent
  alone hf := by
    obtain ⟨hsent, hnone⟩ := h.alone hf
    rw [sentTo_other he]
    refine ⟨hsent, fun pid hmem => ?_⟩
    rcases List.mem_append.1 hmem with hmem | hmem
    · exact hnone pid hmem
    · obtain rfl := List.mem_singleton.1 hmem
      simp [about] at he
  logged := by
    rw [entriesOf_other hl]
    exact h.logged
  log log hlog := (h.log log hlog).snoc e

theorem Shows.output (h : Shows tr k R) (hf : ∃ pid, .forked k pid ∈ tr) (bytes : Bytes) :
    Shows (tr ++ [.sent k bytes]) k R where
  sent := by
    rw [sentTo_snoc]
    exact h.sent.trans (List.prefix_append _ _)
  alone hnone := hf.elim fun pid hpid => absurd hpid ((h.alone hnone).2 pid)
  logged := by
    rw [entriesOf_other (e := .sent k bytes) (by simp)]
    exact h.logged
  log log hlog := (h.log log hlog).snoc _

theorem Shows.got (h : Shows tr k R) {m : Int} {dst : Bytes} (hw : R.written = [])
    (hread : ReadAs tr k dst.dropLast) :
    Shows (tr ++ [.got k m dst]) k ⟨R.task, R.made.next .getLog (m, dst), []⟩ where
  sent := by
    have hsent : sentTo (tr ++ [.got k m dst]) k = sentTo tr k := by simp [sentTo]
    rw [hsent]
    exact h.sent
  alone hf := by
    obtain ⟨hsent, hnone⟩ := h.alone hf
    have hsame : sentTo (tr ++ [.got k m dst]) k = sentTo tr k := by simp [sentTo]
    exact ⟨hsame.trans hsent, by simpa using hnone⟩
  logged := by
    rw [entriesOf_other (e := .got k m dst) (by simp), h.logged, hw]
    rfl
  log log hlog := by
    obtain rfl : dst.dropLast = log := Option.some.inj hlog
    exact hread.snoc _

theorem Shows.logs (h : Shows tr k R) (hw : R.written = []) (bytes : Bytes) :
    Shows (tr ++ [.logged k bytes]) k ⟨R.task, R.made, [bytes]⟩ where
  sent := by
    rw [sentTo_other rfl]
    exact h.sent
  alone hf := by
    obtain ⟨hsent, hnone⟩ := h.alone hf
    rw [sentTo_other rfl]
    exact ⟨hsent, by simpa using hnone⟩
  logged := by
    rw [entriesOf_snoc, if_pos rfl, h.logged, hw, List.append_nil]
  log log hlog := (h.log log hlog).snoc _

theorem Shows.added (h : Shows tr k R) {bs : Bytes} {len : Int} (hw : R.written = stored bs len) :
    Shows tr k ⟨R.task, R.made.next (.addToLog bs len) (), []⟩ where
  sent := h.sent
  alone := h.alone
  logged := by
    rw [h.logged, hw, List.append_nil]
    rfl
  log := h.log

theorem Shows.same (h : Shows tr k R) (hw : R.written = []) {ψ : Transcript}
    (hsent : ψ.sent = R.made.sent) (hforked : ψ.forked = R.made.forked)
    (hlogged : ψ.logged = R.made.logged) (hlog : ψ.log = R.made.log) :
    Shows tr k ⟨R.task, ψ, []⟩ where
  sent := hsent ▸ h.sent
  alone hf := by
    rw [hsent]
    exact h.alone (hforked ▸ hf)
  logged := by
    rw [h.logged, hw, hlogged]
  log log hl := h.log log (hlog ▸ hl)

theorem Shows.wrote (h : Shows tr k R) (hw : R.written = []) (hf : R.made.forked = false)
    (bytes : Bytes) : Shows (tr ++ [.sent k bytes]) k
      ⟨R.task, { R.made with sent := R.made.sent ++ bytes }, []⟩ where
  sent := by
    rw [sentTo_snoc, if_pos rfl, (h.alone hf).1]
  alone _ := by
    obtain ⟨hsent, hnone⟩ := h.alone hf
    exact ⟨by rw [sentTo_snoc, if_pos rfl, hsent], by simpa using hnone⟩
  logged := by
    rw [entriesOf_other (e := .sent k bytes) (by simp), h.logged, hw]
  log log hlog := (h.log log hlog).snoc _

theorem Shows.forked (h : Shows tr k R) (hw : R.written = []) (pid : Nat) :
    Shows (tr ++ [.forked k pid]) k ⟨R.task, { R.made with forked := true }, []⟩ where
  sent := by
    have hsame : sentTo (tr ++ [.forked k pid]) k = sentTo tr k := by simp [sentTo]
    rw [hsame]
    exact h.sent
  alone hf := by cases hf
  logged := by
    rw [entriesOf_other (e := .forked k pid) (by simp), h.logged, hw]
  log log hlog := (h.log log hlog).snoc _

theorem Arrived.mono (h : Arrived es k t) (hes : es <+: es') : Arrived es' k t := by
  obtain ⟨req, hreq, harrival⟩ := h
  obtain ⟨more, rfl⟩ := hes
  refine ⟨req, ?_, harrival⟩
  rw [List.getElem?_append_left (List.getElem?_eq_some_iff.1 hreq).1, hreq]

theorem Records.mono (h : Records places es serving rest tr G) (hes : es <+: es') :
    Records places es' serving rest tr G where
  shows := h.shows
  part := h.part
  uncalled := h.uncalled
  going i x hx := ⟨(h.going i x hx).1, (h.going i x hx).2.mono hes⟩
  answered k i hr := ⟨(h.answered k i hr).1, (h.answered k i hr).2.mono hes⟩

theorem Records.snoc (h : Records places es serving rest tr G) (he : ∀ k, about k e = false)
    (hl : ∀ k bytes, e ≠ .logged k bytes) (hr : ∀ k i, e ≠ .returned k i) :
    Records places es serving rest (tr ++ [e]) G where
  shows k := (h.shows k).snoc (he k) (hl k)
  part := h.part
  uncalled k hk := h.uncalled k ⟨hk.1, fun i hi => hk.2 i (List.mem_append_left _ hi)⟩
  going := h.going
  answered k i hi := by
    rcases List.mem_append.1 hi with hi | hi
    · exact h.answered k i hi
    · exact absurd (List.mem_singleton.1 hi).symm (hr k i)

theorem Records.output (h : Records places es serving rest tr G)
    (hf : ∃ pid, .forked k pid ∈ tr) (bytes : Bytes) :
    Records places es serving rest (tr ++ [.sent k bytes]) G where
  shows k' := by
    by_cases hk : k' = k
    · subst k'
      exact (h.shows k).output hf bytes
    · exact (h.shows k').snoc (by simpa [about] using Ne.symm hk) (by simp)
  part := h.part
  uncalled k' hk := h.uncalled k' ⟨hk.1, fun i hi => hk.2 i (List.mem_append_left _ hi)⟩
  going := h.going
  answered k' i hi := h.answered k' i (by simpa using hi)

theorem Records.take (h : Records places es serving rest tr G) (hi : rest i = none) (k : Nat) :
    Records places es (Function.update serving i k) rest tr G where
  shows := h.shows
  part := h.part
  uncalled k' hk := by
    refine h.uncalled k' ⟨fun j hj => ?_, hk.2⟩
    have hji : j ≠ i := by
      rintro rfl
      rw [hi] at hj
      cases hj
    have hother := hk.1 j hj
    rwa [Function.update_of_ne hji] at hother
  going j x hx := by
    have hji : j ≠ i := by
      rintro rfl
      rw [hi] at hx
      cases hx
    rw [Function.update_of_ne hji]
    exact h.going j x hx
  answered := h.answered

theorem Records.call (h : Records places es serving rest tr G)
    (hnew : Uncalled serving rest tr (serving i)) (hi : rest i = none)
    (hx : t.Follows x .new t.Over) (hp : use (places i) ≠ .adding) (ht : Arrived es (serving i) t) :
    Records places es serving (Function.update rest i (some x)) tr
      (Function.update G (serving i) (.fresh t)) where
  shows k := by
    by_cases hk : k = serving i
    · subst k
      obtain ⟨hmade, hwritten⟩ := h.uncalled _ hnew
      have hshow := h.shows (serving i)
      rw [Function.update_self]
      have hR : (G (serving i)).made = (Record.fresh t).made ∧
          (G (serving i)).written = (Record.fresh t).written := ⟨hmade, hwritten⟩
      exact ⟨hR.1 ▸ hshow.sent, hR.1 ▸ hshow.alone, hR.1 ▸ hR.2 ▸ hshow.logged, hR.1 ▸ hshow.log⟩
    · rw [Function.update_of_ne hk]
      exact h.shows k
  part k := by
    by_cases hk : k = serving i
    · subst k
      rw [Function.update_self]
      exact Transcript.Fresh.starts ⟨rfl, rfl, rfl⟩
    · rw [Function.update_of_ne hk]
      exact h.part k
  uncalled k hk := by
    have hki : k ≠ serving i := fun heq => hk.1 i (by rw [Function.update_self]; rfl) heq.symm
    rw [Function.update_of_ne hki]
    refine h.uncalled k ⟨fun j hj => ?_, hk.2⟩
    have hji : j ≠ i := by
      rintro rfl
      rw [hi] at hj
      cases hj
    exact hk.1 j (by rwa [Function.update_of_ne hji])
  going j y hy := by
    by_cases hj : j = i
    · subst j
      rw [Function.update_self] at hy ⊢
      obtain rfl := Option.some.inj hy
      exact ⟨⟨hx, rfl, .away hp⟩, ht⟩
    · rw [Function.update_of_ne hj] at hy
      have hki : serving j ≠ serving i := hnew.1 j (by rw [hy]; rfl)
      rw [Function.update_of_ne hki]
      exact h.going j y hy
  answered k j hj := by
    have hki : k ≠ serving i := by
      rintro rfl
      exact hnew.2 j hj
    rw [Function.update_of_ne hki]
    exact h.answered k j hj

theorem Records.leave (h : Records places es serving rest tr G) {stats : ThreadsStats}
    (hx : rest i = some (.ret stats)) (hp : use (places i) ≠ .adding) :
    Records places es serving (Function.update rest i none)
      (tr ++ [.returned (serving i) i]) G where
  shows k := (h.shows k).snoc rfl (by simp)
  part := h.part
  uncalled k hk := by
    have hki : serving i ≠ k := by
      rintro rfl
      exact hk.2 i (by simp)
    refine h.uncalled k ⟨fun j hj => ?_, fun j hj => hk.2 j (List.mem_append_left _ hj)⟩
    by_cases hji : j = i
    · rwa [hji]
    · exact hk.1 j (by rwa [Function.update_of_ne hji])
  going j y hy := by
    by_cases hj : j = i
    · subst j
      rw [Function.update_self] at hy
      cases hy
    · rw [Function.update_of_ne hj] at hy
      exact h.going j y hy
  answered k j hj := by
    rcases List.mem_append.1 hj with hj | hj
    · exact h.answered k j hj
    · obtain ⟨rfl, rfl⟩ := Event.returned.inj (List.mem_singleton.1 hj)
      obtain ⟨hgoing, harrived⟩ := h.going j _ hx
      exact ⟨⟨⟨stats, hgoing.follows hgoing.usual⟩, hgoing.passing.nothing hp⟩, harrived⟩

theorem Records.goes (h : Records places es serving rest tr G) (hx : rest i = some x)
    (hdistinct : ∀ j, (rest j).isSome → serving j = serving i → j = i)
    (hopen : ∀ j, .returned (serving i) j ∉ tr)
    (htr : ∀ k j, .returned k j ∈ tr' ↔ .returned k j ∈ tr)
    (hother : ∀ k R, k ≠ serving i → Shows tr k R → Shows tr' k R) {x' : Calls ThreadsStats}
    (hshow : Shows tr' (serving i) R') (hpart : R'.task.Partial R'.made) (hgoing : Going q x' R')
    (htask : R'.task = (G (serving i)).task) :
    Records (Function.update places i q) es serving (Function.update rest i (some x')) tr'
      (Function.update G (serving i) R') where
  shows k := by
    by_cases hk : k = serving i
    · subst k
      rwa [Function.update_self]
    · rw [Function.update_of_ne hk]
      exact hother k _ hk (h.shows k)
  part k := by
    by_cases hk : k = serving i
    · subst k
      rwa [Function.update_self]
    · rw [Function.update_of_ne hk]
      exact h.part k
  uncalled k hk := by
    have hki : k ≠ serving i := fun heq => hk.1 i (by rw [Function.update_self]; rfl) heq.symm
    rw [Function.update_of_ne hki]
    refine h.uncalled k ⟨fun j hj => ?_, fun j hj => hk.2 j ((htr k j).2 hj)⟩
    by_cases hji : j = i
    · subst j
      exact hki.symm
    · exact hk.1 j (by rwa [Function.update_of_ne hji])
  going j y hy := by
    by_cases hj : j = i
    · subst j
      rw [Function.update_self] at hy ⊢
      obtain rfl := Option.some.inj hy
      rw [Function.update_self]
      exact ⟨hgoing, htask ▸ (h.going i x hx).2⟩
    · rw [Function.update_of_ne hj] at hy ⊢
      have hki : serving j ≠ serving i := fun heq => hj (hdistinct j (by rw [hy]; rfl) heq)
      rw [Function.update_of_ne hki]
      exact h.going j y hy
  answered k j hj := by
    have hj := (htr k j).1 hj
    have hki : k ≠ serving i := by
      rintro rfl
      exact hopen j hj
    rw [Function.update_of_ne hki]
    exact h.answered k j hj

def records (task : Nat → Task) (made : Nat → Transcript) (W : Nat → List Bytes) (k : Nat) : Record :=
  ⟨task k, made k, W k⟩

theorem records_update {task : Nat → Task} {made : Nat → Transcript} {W : Nat → List Bytes} :
    Function.update (records task made W) k ⟨t, ψ, w⟩ = records (Function.update task k t)
      (Function.update made k ψ) (Function.update W k w) := by
  funext k'
  by_cases hk : k' = k
  · subst k'
    simp [records]
  · simp [records, hk]

abbrev SystemRecords (s : System n) (W : Nat → List Bytes) : Prop :=
  Records s.log.place s.enqueued s.serving s.rest s.trace (records s.task s.made W)

variable {W : Nat → List Bytes}

theorem enqueued_change (hc : Change s s') : s.enqueued <+: s'.enqueued := by
  have grows {τ : QueueState n} {t : Tid n} {v v' : View} {es ds : List Request}
      (hm : Moves s τ t v v' es ds) : s.enqueued <+: QueueRefinement.enqueued τ.data.trace := by
    rw [hm.enqueued]
    exact List.prefix_append _ _
  cases hc with
  | quiet hm | accepted hm | enqueued hm | dequeued hm | called hm | returned hm | closed hm
  | finished hm => exact grows hm
  | _ => exact List.prefix_rfl

theorem alone (hcap : 1 ≤ cap) (h : Reachable (start n junk cap byte listenfd) s)
    (hbusy : busy (s.look (.worker i)) = true) :
    ∀ j, (s.rest j).isSome → s.serving j = s.serving i → j = i := by
  intro j hj heq
  obtain ⟨y, hy⟩ := Option.isSome_iff_exists.1 hj
  obtain ⟨⟨req, hlook⟩, -⟩ := calling_reachable h j y hy
  exact (numbers_reachable hcap h).distinct j i (by rw [hlook]; rfl) hbusy heq

theorem unreturned {req : Request} (hcap : 1 ≤ cap)
    (h : Reachable (start n junk cap byte listenfd) s)
    (hlook : s.look (.worker i) = .taken req ∨ s.look (.worker i) = .handling req) (j : Fin n) :
    .returned (s.serving i) j ∉ s.trace := by
  have hbusy : busy (s.look (.worker i)) = true := by rcases hlook with hl | hl <;> rw [hl] <;> rfl
  rw [← mem_life (k := s.serving i) rfl]
  rcases (lives_reachable hcap h _).worker (numbers_reachable hcap h) (dequeued_of_enqueued hcap h)
    hbusy with ⟨req', -, he⟩ | ⟨req', hclosing, -⟩ | ⟨connfd, hlast, -⟩
  · simp [he]
  · rcases hlook with hl | hl <;> cases hl.symm.trans hclosing
  · rcases hlook with hl | hl <;> cases hl.symm.trans hlast

theorem away_of_none (h : Reachable (start n junk cap byte listenfd) s)
    (hx : ∀ c k, s.rest i = some (.call c k) → atLog c = false) :
    use (s.log.place i) ≠ .adding := by
  have hnone : use (s.log.place i) = .none := (atLog_reachable h).away hx
  rw [hnone]
  simp

theorem queue_records {τ : QueueState n} {t : Tid n} {a : Frame} {p q : RequestQueue.Pc}
    (hcap : 1 ≤ cap) (hr : Reachable (start n junk cap byte listenfd) s)
    (hr' : Reachable (start n junk cap byte listenfd) s') (hp : s.queue.place t = p)
    (hq : τ.place t = q) (he : s.queueEffect τ a t p q = some s')
    (hes : s.enqueued <+: s'.enqueued) (h : SystemRecords s W) : ∃ W', SystemRecords s' W' := by
  have hcalling := calling_reachable hr
  have h := h.mono hes
  unfold System.queueEffect at he
  split at he
  · obtain ⟨-, hs⟩ := Option.ite_none_right_eq_some.1 he
    obtain rfl := Option.some.inj hs
    exact ⟨W, h.snoc (fun _ => rfl) (by simp) (by simp)⟩
  · obtain rfl := Option.some.inj he
    exact ⟨W, h.snoc (fun _ => rfl) (by simp) (by simp)⟩
  · next i stats req stats' req' =>
    obtain rfl := Option.some.inj he
    have hrest : s.rest i = none := hcalling.away (by simp [System.look, hp, view])
    have htaken := h.take hrest s.dequeued.length
    exact ⟨W, htaken.snoc (fun _ => rfl) (by simp) (by simp)⟩
  · next i stats req now stats' req' dispatch =>
    obtain rfl := Option.some.inj he
    have htaken : s.look (.worker i) = .taken req := by rw [System.look, hp]; rfl
    have hrest : s.rest i = none := hcalling.away (by simp [htaken])
    have hbusy : busy (s.look (.worker i)) = true := by rw [htaken]; rfl
    have hnew : Uncalled s.serving s.rest s.trace (s.serving i) := by
      refine ⟨fun j hj heq => ?_, unreturned hcap hr (.inl htaken)⟩
      obtain rfl := alone hcap hr hbusy j hj heq
      rw [hrest] at hj
      cases hj
    have harrived : Arrived (QueueRefinement.enqueued τ.data.trace) (s.serving i)
        ⟨a.fuel, a.old, req'.arrivalTime, dispatch, stats'⟩ := by
      refine ⟨req', (numbers_reachable hcap hr').taken i req' ?_, rfl⟩
      dsimp only [System.look]
      rw [hq]
      rfl
    have hcalled := h.call hnew hrest (requestHandle_follows
      ⟨a.fuel, a.old, req'.arrivalTime, dispatch, stats'⟩ a.buf)
      (away_of_none hr (by simp [hrest])) harrived
    rw [Record.fresh, records_update] at hcalled
    exact ⟨_, hcalled⟩
  · next i stats req dispatch stats' req' =>
    split at he
    · next stats'' hrest =>
      obtain ⟨-, hs⟩ := Option.ite_none_right_eq_some.1 he
      obtain rfl := Option.some.inj hs
      exact ⟨W, h.leave hrest (away_of_none hr (by simp [hrest]))⟩
    · cases he
  · split at he
    · obtain ⟨-, hs⟩ := Option.ite_none_right_eq_some.1 he
      obtain rfl := Option.some.inj hs
      exact ⟨W, h⟩
    · cases he
  · obtain rfl := Option.some.inj he
    exact ⟨W, h.snoc (fun _ => rfl) (by simp) (by simp)⟩
  · obtain rfl := Option.some.inj he
    exact ⟨W, h.snoc (fun _ => rfl) (by simp) (by simp)⟩
  · obtain rfl := Option.some.inj he
    exact ⟨W, h⟩

theorem child_records {pid : Nat} {m : ChildMove}
    (hr : Reachable (start n junk cap byte listenfd) s) (he : s.childEffect pid m = some s')
    (h : SystemRecords s W) : SystemRecords s' W := by
  unfold System.childEffect at he
  split at he
  · cases he
  · next child hfound =>
    split at he
    · cases he
    · cases m with
      | output fd bytes =>
          dsimp only at he
          split at he
          · obtain ⟨rfl, hs⟩ := Option.ite_none_right_eq_some.1 he
            obtain rfl := Option.some.inj hs
            exact h.output (child_origin hr hfound) bytes
          · obtain rfl := Option.some.inj he
            exact h
      | dup2 oldfd newfd =>
          obtain ⟨-, hs⟩ := Option.ite_none_right_eq_some.1 he
          obtain rfl := Option.some.inj hs
          exact h.snoc (fun _ => rfl) (by simp) (by simp)
      | fork | close | exit =>
          obtain rfl := Option.some.inj he
          exact h.snoc (fun _ => rfl) (by simp) (by simp)
      | stop | resume =>
          obtain rfl := Option.some.inj he
          exact h

theorem goes_on (hcap : 1 ≤ cap) (hr : Reachable (start n junk cap byte listenfd) s)
    (h : SystemRecords s W) (hx : s.rest i = some x)
    (htr : ∀ k j, .returned k j ∈ tr' ↔ .returned k j ∈ s.trace)
    (hother : ∀ k R, k ≠ s.serving i → Shows s.trace k R → Shows tr' k R) {x' : Calls ThreadsStats}
    (hshow : Shows tr' (s.serving i) ⟨s.task (s.serving i), ψ, w⟩)
    (hpart : (s.task (s.serving i)).Partial ψ)
    (hgoing : Going q x' ⟨s.task (s.serving i), ψ, w⟩) : ∃ W',
      Records (Function.update s.log.place i q) s.enqueued s.serving
        (Function.update s.rest i (some x')) tr'
        (records s.task (Function.update s.made (s.serving i) ψ) W') := by
  obtain ⟨⟨req, hlook⟩, -⟩ := calling_reachable hr i x hx
  have hbusy : busy (s.look (.worker i)) = true := by rw [hlook]; rfl
  have hgoes := h.goes hx (alone hcap hr hbusy) (unreturned hcap hr (.inr hlook)) htr hother hshow
    hpart hgoing rfl
  rw [records_update, Function.update_eq_self] at hgoes
  exact ⟨_, hgoes⟩

theorem goes_inside (hcap : 1 ≤ cap) (hr : Reachable (start n junk cap byte listenfd) s)
    (h : SystemRecords s W) (hx : s.rest i = some x)
    (htr : ∀ k j, .returned k j ∈ tr' ↔ .returned k j ∈ s.trace)
    (hother : ∀ k R, k ≠ s.serving i → Shows s.trace k R → Shows tr' k R)
    (hshow : Shows tr' (s.serving i) ⟨s.task (s.serving i), s.made (s.serving i), w⟩)
    (hpass : Passing q x w) : ∃ W',
      Records (Function.update s.log.place i q) s.enqueued s.serving s.rest tr'
        (records s.task s.made W') := by
  have hg := (h.going i x hx).1
  have hgoes := goes_on hcap hr h hx htr hother hshow (h.part _) ⟨hg.follows, hg.usual, hpass⟩
  rwa [← hx, Function.update_eq_self, Function.update_eq_self] at hgoes

theorem rest_of_inside (hr : Reachable (start n junk cap byte listenfd) s)
    (hp : s.log.place i ≠ .idle) : ∃ x, s.rest i = some x := by
  have hdoing := atLog_reachable hr i
  rw [System.use] at hdoing
  cases hplace : s.log.place i with
  | idle => exact absurd hplace hp
  | get c st =>
      rw [hplace] at hdoing
      cases st <;> exact ⟨_, hdoing.choose_spec⟩
  | addTest | add | addRet =>
      rw [hplace] at hdoing
      obtain ⟨bs, len, k, hk⟩ := hdoing
      exact ⟨_, hk⟩

theorem log_records {μ : LogState (Fin n)} (hcap : 1 ≤ cap)
    (hr : Reachable (start n junk cap byte listenfd) s) (hex : Exec (logMachine n) i s.log μ)
    (he : s.logEffect μ i (s.log.place i) (μ.place i) = some s') (h : SystemRecords s W) :
    ∃ W', SystemRecords s' W' := by
  rcases exec_goes hex with ⟨hwoken, hpl, hd⟩ | ⟨p, q, hp, hg, hpl⟩
  · have hsame : SystemRecords { s with log := μ } W := by
      dsimp only [SystemRecords]
      rwa [hpl]
    rw [hpl] at he
    rcases LogLock.waiter_place (machines_reachable hr).log (.inr hwoken) with ⟨c, hp⟩ | ⟨c, e, hp⟩
    all_goals
      rw [hp] at he
      obtain rfl := Option.some.inj he
      exact ⟨W, hsame⟩
  · have hplace := place_of_run hp
    have hq : μ.place i = q := by rw [hpl, Function.update_self]
    rw [hplace, hq] at he
    -- a step that neither calls, returns nor extends the log
    have quiet (hidle : p ≠ .idle) (hqidle : q ≠ .idle) (hclear : ∀ c e, p ≠ .add c e .clear)
        {tr' : List (Event n)} (htr : ∀ k j, .returned k j ∈ tr' ↔ .returned k j ∈ s.trace)
        (hshows : ∀ k R, Shows s.trace k R → Shows tr' k R) :
        ∃ W', Records μ.place s.enqueued s.serving s.rest tr' (records s.task s.made W') := by
      obtain ⟨x, hx⟩ := rest_of_inside hr (by rwa [hplace])
      have hw := (h.going i x hx).1.passing
      rw [hplace] at hw
      rw [hpl]
      exact goes_inside hcap hr h hx htr (fun k R _ => hshows k R) (hshows _ _ (h.shows _))
        (hw.edge (ServerLog.goes_edge hg) hidle hqidle hclear)
    generalize hd : μ.data = d at hg
    cases ServerLog.goes_edge hg with
    | callGet =>
        dsimp only [System.logEffect] at he
        split at he
        · next k hrest =>
            obtain rfl := Option.some.inj he
            have hw := (h.going i _ hrest).1.passing.nothing (by simp [hplace, use])
            have hshow := h.shows (s.serving i)
            rw [records, show W (s.serving i) = [] from hw] at hshow
            dsimp only [SystemRecords]
            rw [hpl]
            exact goes_inside hcap hr h hrest (fun _ _ => Iff.rfl) (fun _ _ _ hR => hR) hshow
              (.away (by simp [use]))
        · cases he
    | callAdd data m readable =>
        dsimp only [System.logEffect] at he
        split at he
        · next bs len k hrest =>
            obtain ⟨⟨rfl, hm⟩, hs⟩ := Option.ite_none_right_eq_some.1 he
            obtain rfl := Option.some.inj hs
            have hw := (h.going i _ hrest).1.passing.nothing (by simp [hplace, use])
            have hshow := h.shows (s.serving i)
            rw [records, show W (s.serving i) = [] from hw] at hshow
            dsimp only [SystemRecords]
            rw [hpl]
            exact goes_inside hcap hr h hrest (fun _ _ => Iff.rfl) (fun _ _ _ hR => hR) hshow
              (.test hm)
        · cases he
    | retAdd c =>
        dsimp only [System.logEffect] at he
        split at he
        · next bs len k hrest =>
            obtain rfl := Option.some.inj he
            obtain ⟨⟨hallows, hnext⟩, husual, hpass⟩ := (h.going i _ hrest).1
            rw [hplace] at hpass
            have hw := hpass.returns
            have hshow := h.shows (s.serving i)
            dsimp only [SystemRecords, System.goOn]
            rw [hpl]
            exact goes_on hcap hr h hrest (fun _ _ => Iff.rfl) (fun _ _ _ hR => hR) (hshow.added hw)
              ((h.part _).next (hallows husual) ()) ⟨hnext (), husual, .away (by simp [use])⟩
        · cases he
    | retGet c dst m =>
        dsimp only [System.logEffect] at he
        split at he
        · next k hrest =>
            obtain rfl := Option.some.inj he
            obtain ⟨⟨hallows, hnext⟩, husual, hpass⟩ := (h.going i _ hrest).1
            have hhanding : s.use i = .handing dst m := by rw [System.use, hplace]; rfl
            obtain ⟨log, hread, hdst, hm⟩ := (copies_reachable hr).handing i dst m hhanding
            have hwhole : Whole m dst := by rw [hdst, hm]; exact whole_concat log
            have hlast : dst.dropLast = log := by rw [hdst, List.dropLast_concat]
            have husual' : ((s.made (s.serving i)).next .getLog (m, dst)).unusual = false := by
              rw [next_getLog, show (s.made (s.serving i)).unusual = false from husual,
                decide_eq_true hwhole, Bool.not_true, Bool.or_false]
            dsimp only [SystemRecords, System.goOn]
            rw [hpl]
            have hw := hpass.nothing (by simp [hplace, use])
            have hshow := (h.shows (s.serving i)).got (m := m) hw (hlast ▸ hread)
            refine goes_on hcap hr h hrest (fun _ _ => by simp) (fun k R hk hR => ?_) hshow
              ((h.part _).next (hallows husual) _) ⟨hnext _, husual', .away (by simp [use])⟩
            exact hR.snoc (by simpa [about] using hk.symm) (by simp)
        · cases he
    | readCounted c =>
        obtain rfl := Option.some.inj he
        refine quiet (by simp) (by simp) (by simp) (fun k j => by simp) fun k R hR => ?_
        exact hR.snoc rfl (by simp)
    | wrote c e =>
        obtain rfl := Option.some.inj he
        obtain ⟨x, hx⟩ := rest_of_inside (i := i) hr (by simp [hplace])
        have hpass := (h.going i x hx).1.passing
        rw [hplace] at hpass
        obtain ⟨hw, hpass⟩ := hpass.writes
        have hshow := (h.shows (s.serving i)).logs hw e.bytes
        dsimp only [SystemRecords]
        rw [hpl]
        refine goes_inside hcap hr h hx (fun k j => by simp) (fun k R hk hR => hR.snoc rfl ?_) hshow hpass
        rintro bytes heq
        exact hk (Event.logged.inj heq).1.symm
    | readFailed | writeFailed => cases he
    | _ =>
        obtain rfl := Option.some.inj he
        exact quiet (by simp) (by simp) (by simp) (fun _ _ => Iff.rfl) fun _ _ hR => hR

theorem goes_away {c : Call} {f : c.Answer → Calls ThreadsStats} {x' : Calls ThreadsStats}
    (hcap : 1 ≤ cap) (hr : Reachable (start n junk cap byte listenfd) s) (h : SystemRecords s W)
    (hx : s.rest i = some (.call c f)) (haway : atLog c = false)
    (htr : ∀ k j, .returned k j ∈ tr' ↔ .returned k j ∈ s.trace)
    (hother : ∀ k R, k ≠ s.serving i → Shows s.trace k R → Shows tr' k R) (hψ : ψ.unusual = false)
    (hpart : (s.task (s.serving i)).Partial ψ)
    (hshow : Shows tr' (s.serving i) ⟨s.task (s.serving i), ψ, []⟩)
    (hfollows : (s.task (s.serving i)).Follows x' ψ (s.task (s.serving i)).Over) : ∃ W',
      Records s.log.place s.enqueued s.serving (Function.update s.rest i (some x')) tr'
        (records s.task (Function.update s.made (s.serving i) ψ) W') := by
  have hplace := away_of_none hr (away_of_call hx haway)
  have hgoes := goes_on (q := s.log.place i) hcap hr h hx htr hother hshow hpart
    ⟨hfollows, hψ, .away hplace⟩
  rwa [Function.update_eq_self] at hgoes

theorem answered_records {c : Call} {f : c.Answer → Calls ThreadsStats} (a : c.Answer)
    (hcap : 1 ≤ cap) (hr : Reachable (start n junk cap byte listenfd) s) (h : SystemRecords s W)
    (hx : s.rest i = some (.call c f)) (haway : atLog c = false)
    (hsame : ∀ ψ : Transcript, (ψ.next c a).sent = ψ.sent ∧ (ψ.next c a).forked = ψ.forked ∧
      (ψ.next c a).logged = ψ.logged ∧ (ψ.next c a).log = ψ.log ∧
      (ψ.unusual = false → (ψ.next c a).unusual = false)) : ∃ W',
      Records s.log.place s.enqueued s.serving (Function.update s.rest i (some (f a))) s.trace
        (records s.task (Function.update s.made (s.serving i)
          ((s.made (s.serving i)).next c a)) W') := by
  obtain ⟨⟨hallows, hnext⟩, husual, hpass⟩ := (h.going i _ hx).1
  have hw := hpass.nothing (away_of_none hr (away_of_call hx haway))
  obtain ⟨hsent, hforked, hlogged, hlog, hstill⟩ := hsame (s.made (s.serving i))
  exact goes_away hcap hr h hx haway (fun _ _ => Iff.rfl) (fun _ _ _ hR => hR) (hstill husual)
    ((h.part _).next (hallows husual) a) ((h.shows _).same hw hsent hforked hlogged hlog) (hnext a)

theorem call_records {req : Request} {c : Call} {f : c.Answer → Calls ThreadsStats}
    {a : Server.Answer} (hcap : 1 ≤ cap) (hr : Reachable (start n junk cap byte listenfd) s)
    (hlook : s.look (.worker i) = .handling req) (hx : s.rest i = some (.call c f))
    (he : s.callEffect i req.connfd c f a = some s') (h : SystemRecords s W) :
    ∃ W', SystemRecords s' W' := by
  unfold System.callEffect at he
  split at he
  · obtain rfl := Option.some.inj he
    exact answered_records _ hcap hr h hx rfl fun ψ => ⟨rfl, rfl, rfl, rfl, id⟩
  · next usrbuf m f j =>
    split at he
    · next c hconn =>
      obtain ⟨⟨-, hle, -⟩, hs⟩ := Option.ite_none_right_eq_some.1 he
      obtain rfl := Option.some.inj hs
      have hserved : inService (s.look (.worker i)) = some req := by rw [hlook]; rfl
      have hown := (tables_reachable hcap hr).conns.served hserved
      obtain rfl : s.serving i = c := by simpa using hown.symm.trans hconn
      obtain ⟨⟨hallows, hnext⟩, husual, hpass⟩ := (h.going i _ hx).1
      have hw := hpass.nothing (away_of_none hr (away_of_call hx rfl))
      obtain ⟨hforked, hmessage⟩ := hallows husual
      have hjoin : usrbuf.take j ++ (usrbuf.drop j).take (m - j) = usrbuf.take m := by
        rw [← List.take_add, Nat.add_sub_cancel' hle]
      refine goes_away hcap hr h hx rfl (fun _ _ => by simp) (fun k R hk hR => ?_) (by exact husual)
        ((h.part _).wrote (hallows husual) hle) ((h.shows _).wrote hw hforked _)
        ⟨fun _ => ⟨hforked, ?_⟩, fun r => ?_⟩
      · exact hR.snoc (by simpa [about] using hk.symm) (by simp)
      · rw [List.append_assoc, hjoin]
        exact hmessage
      · have hrest := hnext r
        simp only [Task.protocol, Transcript.next] at hrest ⊢
        rwa [List.append_assoc, hjoin]
    · cases he
  · obtain rfl := Option.some.inj he
    exact answered_records _ hcap hr h hx rfl fun ψ =>
      ⟨by simp [Transcript.next], rfl, rfl, rfl, id⟩
  · obtain rfl := Option.some.inj he
    exact answered_records _ hcap hr h hx rfl fun ψ => ⟨rfl, rfl, rfl, rfl, id⟩
  · next pathname f fd =>
    obtain ⟨⟨hnonneg, -⟩, hs⟩ := Option.ite_none_right_eq_some.1 he
    obtain rfl := Option.some.inj hs
    refine answered_records (c := .openFile pathname) fd hcap hr h hx rfl fun ψ =>
      ⟨rfl, rfl, rfl, rfl, fun hu => ?_⟩
    rw [next_openFile, hu, decide_eq_false (not_lt.2 hnonneg), Bool.or_false]
  · obtain rfl := Option.some.inj he
    exact answered_records _ hcap hr h hx rfl fun ψ => ⟨rfl, rfl, rfl, rfl, id⟩
  · obtain rfl := Option.some.inj he
    exact answered_records _ hcap hr h hx rfl fun ψ => ⟨rfl, rfl, rfl, rfl, id⟩
  · obtain rfl := Option.some.inj he
    exact answered_records _ hcap hr h hx rfl fun ψ => ⟨rfl, rfl, rfl, rfl, id⟩
  · obtain rfl := Option.some.inj he
    exact answered_records _ hcap hr h hx rfl fun ψ => ⟨rfl, rfl, rfl, rfl, id⟩
  · next cgiargs filename f =>
    obtain rfl := Option.some.inj he
    obtain ⟨⟨hallows, hnext⟩, husual, hpass⟩ := (h.going i _ hx).1
    have hw := hpass.nothing (away_of_none hr (away_of_call hx rfl))
    refine goes_away hcap hr h hx rfl (fun _ _ => by simp) (fun k R hk hR => ?_) (by exact husual)
      ((h.part _).next (hallows husual) (s.forks + 1)) ((h.shows _).forked hw (s.forks + 1))
      (hnext (s.forks + 1))
    exact hR.snoc (by simpa [about] using hk.symm) (by simp)
  · split at he
    · obtain ⟨-, hs⟩ := Option.ite_none_right_eq_some.1 he
      obtain rfl := Option.some.inj hs
      exact answered_records _ hcap hr h hx rfl fun ψ => ⟨rfl, rfl, rfl, rfl, id⟩
    · cases he
  · cases he

theorem step_records (hcap : 1 ≤ cap) (hr : Reachable (start n junk cap byte listenfd) s)
    (hi : ∃ W, SystemRecords s W) (hs : Step s s') : ∃ W, SystemRecords s' W := by
  obtain ⟨W, h⟩ := hi
  have hes := enqueued_change (step_change hr hs)
  have hr' := hr.next hs
  cases hs with
  | queue t a live hex he => exact queue_records hcap hr hr' rfl rfl he hes h
  | queueSpurious u live hex => exact ⟨W, h.mono hes⟩
  | log i live hex he => exact log_records hcap hr hex he h
  | logSpurious u live hex =>
      obtain ⟨hpl, -, -⟩ := spurious_place hex
      refine ⟨W, ?_⟩
      dsimp only [SystemRecords]
      rwa [hpl]
  | call i a live hp hx he => exact call_records hcap hr (by rw [System.look, hp]; rfl) hx he h
  | child pid m he => exact ⟨W, child_records hr he h⟩

theorem records_reachable (hcap : 1 ≤ cap) (h : Reachable (start n junk cap byte listenfd) s) :
    ∃ W, SystemRecords s W := by
  refine h.invariant (I := fun s => ∃ W, SystemRecords s W) ⟨fun _ => [], ?_⟩
    fun s s' hr hi hs => step_records hcap hr hi hs
  exact {
    shows := fun k => ⟨List.nil_prefix, fun _ => ⟨rfl, by simp [start]⟩, rfl,
      by simp [records, start, Transcript.new]⟩
    part := fun k => Transcript.Fresh.starts ⟨rfl, rfl, rfl⟩
    uncalled := fun k _ => ⟨rfl, rfl⟩
    going := by simp [start]
    answered := by simp [start] }

/-- Request `k` is on its way: it has got a part of the message for `t`, or a program is
running behind the whole message, and of the entries a part is in the log. -/
structure Underway (tr : List (Event n)) (k : Nat) (t : Task) (ψ : Transcript) : Prop where
  sent : sentTo tr k <+: t.message ψ ∨
    t.message ψ <+: sentTo tr k ∧ ∃ filename cgiargs, t.reply ψ = some (.program filename cgiargs)
  logged : entriesOf tr k <+: (t.entries ψ).flatMap fun e => stored e e.length

/-- Request `k` has got what `t` is answered when its calls answer as in `ψ`. It was
handed the log as it was when it began to read. -/
structure Served (tr : List (Event n)) (es : List Request) (k : Nat) (t : Task) (ψ : Transcript) :
    Prop where
  arrived : Arrived es k t
  sent : sentTo tr k = t.message ψ ∨
    t.message ψ <+: sentTo tr k ∧ ∃ filename cgiargs, t.reply ψ = some (.program filename cgiargs)
  logged : entriesOf tr k = (t.entries ψ).flatMap fun e => stored e e.length
  log : t.reply ψ = some .log → ∃ log, ψ.log = some log ∧ ReadAs tr k log

theorem underway_of (h : SystemRecords s W) (k : Nat) :
    Underway s.trace k (s.task k) (s.made k) where
  sent := by
    cases hf : (s.made k).forked with
    | false =>
        rw [((h.shows k).alone hf).1]
        exact .inl (h.part k).sent
    | true =>
        obtain ⟨hsent, hprogram⟩ := (h.part k).forked hf
        exact .inr ⟨hsent ▸ (h.shows k).sent, hprogram⟩
  logged := by
    rw [(h.shows k).logged]
    -- either a worker is at the request, or its call has returned, or nobody has begun
    by_cases hgoing : ∃ i, (s.rest i).isSome ∧ s.serving i = k
    · obtain ⟨i, hi, rfl⟩ := hgoing
      obtain ⟨x, hx⟩ := Option.isSome_iff_exists.1 hi
      exact (h.going i x hx).1.entries (h.part _)
    · have hwritten : W k = [] := by
        by_cases hreturned : ∃ i, .returned k i ∈ s.trace
        · obtain ⟨i, hi⟩ := hreturned
          exact (h.answered k i hi).1.written
        · exact (h.uncalled k ⟨fun i hi heq => hgoing ⟨i, hi, heq⟩,
            fun i hi => hreturned ⟨i, hi⟩⟩).2
      rw [records, hwritten, List.append_nil]
      exact (h.part k).logged

theorem served_of (h : SystemRecords s W) (hreturned : .returned k i ∈ s.trace) :
    Served s.trace s.enqueued k (s.task k) (s.made k) := by
  obtain ⟨⟨⟨stats, hover⟩, hwritten⟩, harrived⟩ := h.answered k i hreturned
  have hover : (s.task k).Over stats (s.made k) := hover
  have hshows := h.shows k
  refine ⟨harrived, ?_, ?_, fun hlog => ?_⟩
  · rw [← hover.sent]
    cases hf : (s.made k).forked with
    | false => exact .inl (hshows.alone hf).1
    | true => exact .inr ⟨hshows.sent, ((h.part k).forked hf).2⟩
  · rw [hshows.logged, hwritten, List.append_nil]
    exact hover.logged
  · obtain ⟨log, hmade⟩ := Option.isSome_iff_exists.1 (hover.log hlog)
    exact ⟨log, hmade, hshows.log log hmade⟩

def Called (s : System n) (k : Nat) : Prop :=
  (∃ i, (s.rest i).isSome ∧ s.serving i = k) ∨ ∃ i, .returned k i ∈ s.trace

theorem Called.mono (h : Called s k) (hserving : ∀ i, (s.rest i).isSome → s'.serving i = s.serving i)
    (hrest : ∀ i, (s.rest i).isSome → (s'.rest i).isSome ∨ .returned (s.serving i) i ∈ s'.trace)
    (htr : s.trace <+: s'.trace) : Called s' k := by
  rcases h with ⟨i, hi, rfl⟩ | ⟨i, hi⟩
  · exact (hrest i hi).imp (fun hi' => ⟨i, hi', hserving i hi⟩) fun hi' => ⟨i, hi'⟩
  · exact .inr ⟨i, htr.subset hi⟩

theorem serving_change (hcalling : Calling s.look s.rest s.session) (hc : Change s s')
    (hi : (s.rest i).isSome) : s'.serving i = s.serving i := by
  cases hc with
  | @dequeued τ j req hm =>
      have hrest : s.rest j = none := hcalling.away (by rw [hm.old]; nofun)
      refine Function.update_of_ne ?_ _ _
      rintro rfl
      rw [hrest] at hi
      cases hi
  | _ => rfl

theorem called_change (hcalling : Calling s.look s.rest s.session) (hc : Change s s')
    (h : Called s k) : Called s' k := by
  have trace (e : Event n) : s.trace <+: s.trace ++ [e] := List.prefix_append _ _
  have goes {i : Fin n} {x : Calls ThreadsStats} (j : Fin n) (hj : (s.rest j).isSome) :
      (Function.update s.rest i (some x) j).isSome := by
    by_cases hji : j = i
    · rw [hji, Function.update_self]
      rfl
    · rwa [Function.update_of_ne hji]
  have hserving (i : Fin n) (hi : (s.rest i).isSome) := serving_change hcalling hc hi
  cases hc with
  | @returned τ i req stats hm rest =>
      refine h.mono hserving (fun j hj => ?_) (trace _)
      by_cases hji : j = i
      · subst j
        exact .inr (by simp)
      · refine .inl ?_
        dsimp only
        rwa [Function.update_of_ne hji]
  | accepted | enqueued | dequeued | closed | finished | reads | logged | output | duplicated
  | spawned | shut | ended => exact h.mono hserving (fun _ hj => .inl hj) (trace _)
  | got | wrote | forked => exact h.mono hserving (fun j hj => .inl (goes j hj)) (trace _)
  | called | added | answered | opened | fileClosed =>
      exact h.mono hserving (fun j hj => .inl (goes j hj)) List.prefix_rfl
  | _ => exact h

theorem task_change (hcap : 1 ≤ cap) (hr : Reachable (start n junk cap byte listenfd) s)
    (hc : Change s s') (h : Called s k) : s'.task k = s.task k := by
  cases hc with
  | @called τ i req x t hm follows =>
      refine Function.update_of_ne ?_ _ _
      rintro rfl
      have htaken : s.look (.worker i) = .taken req := hm.old
      have hrest : s.rest i = none := (calling_reachable hr).away (by simp [htaken])
      rcases h with ⟨j, hj, heq⟩ | ⟨j, hj⟩
      · obtain rfl := alone hcap hr (by rw [htaken]; rfl) j hj heq
        rw [hrest] at hj
        cases hj
      · exact unreturned hcap hr (.inl htaken) j hj
  | _ => rfl

theorem task_kept (hcap : 1 ≤ cap) (hr : Reachable (start n junk cap byte listenfd) s)
    (h : Called s k) (h' : Reachable s s') : Called s' k ∧ s'.task k = s.task k := by
  induction h' with
  | start => exact ⟨h, rfl⟩
  | next hrun hs ih =>
      have hr' := hr.trans hrun
      have hc := step_change hr' hs
      exact ⟨called_change (calling_reachable hr') hc ih.1,
        (task_change hcap hr' hc ih.1).trans ih.2⟩

theorem called_of_handling (hr : Reachable (start n junk cap byte listenfd) s) {req : Request}
    (hlook : s.look (.worker i) = .handling req) : Called s (s.serving i) :=
  .inl ⟨i, handles_reachable hr i req hlook, rfl⟩

/-- A worker in `requestHandle` has called it with its own counters and intervals. -/
def Attends (s : System n) : Prop := ∀ i stats req dispatch,
  s.queue.place (.worker i) = .worker stats (.handle req dispatch) →
    ∃ fuel old, s.task (s.serving i) = ⟨fuel, old, req.arrivalTime, dispatch, stats⟩

theorem attends_queue {τ : QueueState n} {t : Tid n} {a : Frame} (hcap : 1 ≤ cap)
    (hr : Reachable (start n junk cap byte listenfd) s) (hex : Exec (queueMachine n) t s.queue τ)
    (he : s.queueEffect τ a t (s.queue.place t) (τ.place t) = some s') (hc : Change s s')
    (h : Attends s) : Attends s' := by
  obtain ⟨hqueue, -⟩ := queueEffect_parts he
  -- the other workers stay where they are
  have other {i : Fin n} {stats : ThreadsStats} {req : Request} {dispatch : RequestQueue.Timeval}
      (hp : s.queue.place (.worker i) = .worker stats (.handle req dispatch)) :
      ∃ fuel old, s'.task (s'.serving i) = ⟨fuel, old, req.arrivalTime, dispatch, stats⟩ := by
    have hcalled := called_of_handling hr (by rw [System.look, hp]; rfl)
    have hi := handles_reachable hr i req (by rw [System.look, hp]; rfl)
    rw [serving_change (calling_reachable hr) hc hi, task_change hcap hr hc hcalled]
    exact h i stats req dispatch hp
  rcases exec_goes hex with ⟨-, hpl, -⟩ | ⟨p, q, hp, hg, hpl⟩
  · intro i stats req dispatch hi
    rw [hqueue, hpl] at hi
    exact other hi
  · have hplace := place_of_run hp
    have hq : τ.place t = q := by rw [hpl, Function.update_self]
    rw [hplace, hq] at he
    intro i stats req dispatch hi
    rw [hqueue] at hi
    by_cases ht : Tid.worker i = t
    · subst t
      obtain rfl : q = .worker stats (.handle req dispatch) := hq.symm.trans hi
      generalize τ.data = d at hg
      cases RequestQueue.goes_edge hg with
      | timeTaken =>
          obtain rfl := Option.some.inj he
          exact ⟨a.fuel, a.old, Function.update_self _ _ _⟩
      | exited => exact other hplace
    · rw [hpl, Function.update_of_ne ht] at hi
      exact other hi

theorem attends_reachable (hcap : 1 ≤ cap) (h : Reachable (start n junk cap byte listenfd) s) :
    Attends s := by
  refine h.invariant (I := Attends) nofun fun s s' hr hi hs => ?_
  have hc := step_change hr hs
  have same (hqueue : ∀ t, s'.queue.place t = s.queue.place t) : Attends s' := by
    intro i stats req dispatch hp
    rw [hqueue] at hp
    have hlook : s.look (.worker i) = .handling req := by rw [System.look, hp]; rfl
    rw [serving_change (calling_reachable hr) hc (handles_reachable hr i req hlook),
      task_change hcap hr hc (called_of_handling hr hlook)]
    exact hi i stats req dispatch hp
  cases hs with
  | queue t a live hex he => exact attends_queue hcap hr hex he hc hi
  | queueSpurious u live hex =>
      obtain ⟨hpl, -, -⟩ := spurious_place hex
      exact same fun t => congrFun hpl t
  | log i live hex he => exact same fun t => by rw [(logEffect_parts he).1]
  | logSpurious => exact same fun _ => rfl
  | call i a live hp hx he => exact same fun t => by rw [(callEffect_parts he).1]
  | child pid m he => exact same fun t => by rw [(childEffect_parts he).1]

theorem call_kept (hcap : 1 ≤ cap) (h : Reachable (start n junk cap byte listenfd) s)
    (h' : Reachable s s') {stats : ThreadsStats} {req : Request} {dispatch : RequestQueue.Timeval}
    (hp : s.queue.place (.worker i) = .worker stats (.handle req dispatch)) :
    s.enqueued[s.serving i]? = some req ∧
      ∃ fuel old, s'.task (s.serving i) = ⟨fuel, old, req.arrivalTime, dispatch, stats⟩ := by
  have hlook : s.look (.worker i) = .handling req := by rw [System.look, hp]; rfl
  rw [(task_kept hcap h (called_of_handling h hlook) h').2]
  exact ⟨(numbers_reachable hcap h).taken i req (by rw [hlook]; rfl),
    attends_reachable hcap h i stats req dispatch hp⟩

/-- In `s'` the requests are answered, each for what its own calls have answered. A worker
that was in `requestHandle` in `s` had called it with its own counters, for the request that
it had taken, and it is with these that this request is answered. -/
structure Answering (s s' : System n) : Prop where
  underway : ∀ k, Underway s'.trace k (s'.task k) (s'.made k)
  served : ∀ k i, .returned k i ∈ s'.trace →
    Served s'.trace s'.enqueued k (s'.task k) (s'.made k)
  called : ∀ i stats req dispatch,
    s.queue.place (.worker i) = .worker stats (.handle req dispatch) →
      s.enqueued[s.serving i]? = some req ∧
        ∃ fuel old, s'.task (s.serving i) = ⟨fuel, old, req.arrivalTime, dispatch, stats⟩

def handling (s : System 2) : Bool :=
  match s.queue.place (.worker 0) with
  | .worker _ (.handle _ _) => true
  | _ => false

theorem handling_place {s : System 2} (h : handling s = true) :
    ∃ stats req dispatch, s.queue.place (.worker 0) = .worker stats (.handle req dispatch) := by
  rw [handling] at h
  split at h
  · next hp => exact ⟨_, _, _, hp⟩
  · cases h

theorem recorded_ends : ((System.replay (Visibility.fetch.take 22)
    (start 2 (fun _ => ⟨0, 0, 0⟩) 2 (fun _ => 0) 3)).any fun s => handling s &&
      (System.replay (Visibility.fetch.drop 22 ++ Visibility.record) s).any fun s' =>
        decide (.returned 0 0 ∈ s'.trace)) = true := by
  decide +kernel

end WebServer.ServedRequests
