import WebServer.ServerSteps

namespace WebServer.LogReaders

open Message RequestCalls Sessions Server
open LogBuffer (text)
open RequestQueue (QueueState Tid ThreadsStats Request)
open ServerLog (LogState int32)

variable {n cap : Nat} {junk : Nat → Request} {byte : Nat → ServerLog.Byte} {listenfd : Int}
  {s s' : System n} {k : Nat} {i : Fin n} {tr : List (Event n)} {uses : Fin n → Use}
  {rest : Fin n → Option (Calls ThreadsStats)} {serving : Fin n → Nat} {e : Event n} {dst : Bytes}
  {m : Int}

def loggedIn (tr : List (Event n)) : List Bytes :=
  tr.filterMap fun
    | .logged _ e => some e
    | _ => none

def logIn (tr : List (Event n)) : Bytes := (loggedIn tr).flatten

theorem loggedIn_snoc (tr : List (Event n)) (k : Nat) (e : Bytes) :
    loggedIn (tr ++ [.logged k e]) = loggedIn tr ++ [e] := by
  simp [loggedIn]

theorem loggedIn_other (he : ∀ k bytes, e ≠ .logged k bytes) : loggedIn (tr ++ [e]) = loggedIn tr := by
  cases e with
  | logged k bytes => exact absurd rfl (he k bytes)
  | _ => simp [loggedIn]

theorem mem_loggedIn {e : Bytes} : e ∈ loggedIn tr ↔ ∃ k, .logged k e ∈ tr := by
  rw [loggedIn, List.mem_filterMap]
  constructor
  · rintro ⟨ev, hev, he⟩
    cases ev with
    | logged k bytes =>
        obtain rfl := Option.some.inj he
        exact ⟨k, hev⟩
    | _ => cases he
  · rintro ⟨k, hk⟩
    exact ⟨_, hk, rfl⟩
theorem entries_change (h : loggedIn s.trace = s.entries.map Prod.snd) (hc : Change s s') :
    loggedIn s'.trace = s'.entries.map Prod.snd := by
  have same {μ : LogState (Fin n)} {i : Fin n} {v v' : Use} (hm : LogMoves s μ i v v' []) :
      loggedIn s.trace = (LogBuffer.entries μ.data.trace).map Prod.snd := by
    rwa [hm.entries, List.append_nil]
  have silent {e : Event n} {es : List Bytes} (hes : loggedIn s.trace = es)
      (he : ∀ k bytes, e ≠ .logged k bytes) : loggedIn (s.trace ++ [e]) = es :=
    (loggedIn_other he).trans hes
  cases hc with
  | accepted | enqueued | dequeued | returned | closed | finished | wrote | forked | output | duplicated
  | spawned | shut | ended =>
      exact silent h nofun
  | logQuiet hm | asks hm | adds hm | copied hm | added hm => exact same hm
  | reads hm | got hm => exact silent (same hm) nofun
  | @logged μ i c e hm unread =>
      dsimp only [System.entries]
      rw [loggedIn_snoc, hm.entries, h, List.map_append]
      rfl
  | _ => exact h

theorem entries_reachable (h : Reachable (start n junk cap byte listenfd) s) :
    loggedIn s.trace = s.entries.map Prod.snd :=
  h.changes (I := fun s => loggedIn s.trace = s.entries.map Prod.snd) rfl
    fun _ _ _ _ hi hc => entries_change hi hc

theorem text_entries (h : Reachable (start n junk cap byte listenfd) s) :
    text s.entries = logIn s.trace := by
  rw [logIn, entries_reachable h, text, List.flatMap_def]

def Doing : Use → Option (Calls ThreadsStats) → Prop
  | .none, _ => True
  | .asking, x | .reading, x | .handing .., x => ∃ k, x = some (.call .getLog k)
  | .adding, x => ∃ bs len k, x = some (.call (.addToLog bs len) k)

def AtLog (uses : Fin n → Use) (rest : Fin n → Option (Calls ThreadsStats)) : Prop :=
  ∀ i, Doing (uses i) (rest i)

theorem AtLog.away (h : AtLog uses rest)
    (hr : ∀ c k, rest i = some (.call c k) → atLog c = false) : uses i = .none := by
  have hi := h i
  cases hu : uses i with
  | none => rfl
  | asking | reading | handing =>
      rw [hu] at hi
      obtain ⟨k, hk⟩ := hi
      cases hr _ _ hk
  | adding =>
      rw [hu] at hi
      obtain ⟨bs, len, k, hk⟩ := hi
      cases hr _ _ hk

theorem away_of_call {c : Call} {k : c.Answer → Calls ThreadsStats} (hr : rest i = some (.call c k))
    (hc : atLog c = false) (c' : Call) (k' : c'.Answer → Calls ThreadsStats)
    (hr' : rest i = some (.call c' k')) : atLog c' = false := by
  rw [hr] at hr'
  cases hr'
  exact hc

theorem AtLog.goOn (h : AtLog uses rest) (hu : uses i = .none) (x : Option (Calls ThreadsStats)) :
    AtLog uses (Function.update rest i x) :=
  (Function.forall_update_iff rest fun j y => Doing (uses j) y).2
    ⟨by rw [hu]; trivial, fun j _ => h j⟩

theorem AtLog.moves (h : AtLog s.use rest) {μ : LogState (Fin n)} {v v' : Use}
    {es : List (Nat × Bytes)} (hm : LogMoves s μ i v v' es) (hv : Doing v' (rest i)) :
    AtLog (fun j => use (μ.place j)) rest := by
  rw [funext hm.use]
  exact (Function.forall_update_iff s.use fun j u => Doing u (rest j)).2 ⟨hv, fun j _ => h j⟩

theorem AtLog.leave (h : AtLog s.use rest) {μ : LogState (Fin n)} {v : Use}
    {es : List (Nat × Bytes)} (hm : LogMoves s μ i v .none es) (x : Option (Calls ThreadsStats)) :
    AtLog (fun j => use (μ.place j)) (Function.update rest i x) := by
  have hleft : AtLog (fun j => use (μ.place j)) rest := h.moves hm trivial
  refine hleft.goOn ?_ x
  rw [hm.use, Function.update_self]

theorem atLog_change (hcalling : Calling s.look s.rest s.session) (h : AtLog s.use s.rest)
    (hc : Change s s') : AtLog s'.use s'.rest := by
  have away {i : Fin n} {c : Call} {k : c.Answer → Calls ThreadsStats} (hr : s.rest i = some (.call c k))
      (hat : atLog c = false) (x : Option (Calls ThreadsStats)) :
      AtLog s.use (Function.update s.rest i x) := h.goOn (h.away (away_of_call hr hat)) x
  have stays {i : Fin n} {v : Use} (hold : s.use i = v) : Doing v (s.rest i) := hold ▸ h i
  cases hc with
  | @called τ i req x t hm follows =>
      have hrest : s.rest i = none := hcalling.away (by rw [hm.old]; nofun)
      exact h.goOn (h.away (by rw [hrest]; nofun)) _
  | @returned τ i req stats hm rest =>
      refine h.goOn (h.away fun c k hr => ?_) _
      cases rest.symm.trans hr
  | logQuiet hm | logged hm => exact h.moves hm (stays hm.old)
  | asks hm rest => exact h.moves hm ⟨_, rest⟩
  | adds hm rest => exact h.moves hm ⟨_, _, _, rest⟩
  | reads hm | copied hm =>
      have hcall := stays hm.old
      exact h.moves hm hcall
  | got hm | added hm => exact h.leave hm _
  | answered a look rest same apart => exact away rest apart _
  | wrote look rest | opened look rest | fileClosed look rest | forked look rest =>
      exact away rest rfl _
  | _ => exact h

theorem atLog_reachable (h : Reachable (start n junk cap byte listenfd) s) : AtLog s.use s.rest :=
  h.changes (I := fun s => AtLog s.use s.rest) (fun _ => trivial)
    fun _ _ hr _ hi hc => atLog_change (calling_reachable hr) hi hc

/-- The log was `log` when request `k` began to read it. -/
def ReadAs (tr : List (Event n)) (k : Nat) (log : Bytes) : Prop :=
  ∃ pre post, tr = pre ++ .reads k :: post ∧ logIn pre = log

def Handed (tr : List (Event n)) (k : Nat) (dst : Bytes) (m : Int) : Prop :=
  ∃ log, ReadAs tr k log ∧ dst = log ++ [0] ∧ m = int32 log.length

structure Copies (uses : Fin n → Use) (serving : Fin n → Nat) (tr : List (Event n)) : Prop where
  reading : ∀ i, uses i = .reading → ReadAs tr (serving i) (logIn tr)
  handing : ∀ i dst m, uses i = .handing dst m → Handed tr (serving i) dst m
  got : ∀ k m dst, .got k m dst ∈ tr → Handed tr k dst m

theorem ReadAs.snoc {log : Bytes} (h : ReadAs tr k log) (e : Event n) : ReadAs (tr ++ [e]) k log := by
  obtain ⟨pre, post, rfl, hlog⟩ := h
  exact ⟨pre, post ++ [e], by simp, hlog⟩

theorem Handed.snoc (h : Handed tr k dst m) (e : Event n) : Handed (tr ++ [e]) k dst m := by
  obtain ⟨log, hread, hcopy⟩ := h
  exact ⟨log, hread.snoc e, hcopy⟩

theorem Copies.snoc (h : Copies uses serving tr) (hlogged : ∀ k bytes, e ≠ .logged k bytes)
    (hgot : ∀ k m dst, e ≠ .got k m dst) : Copies uses serving (tr ++ [e]) where
  reading i hi := by
    rw [logIn, loggedIn_other hlogged]
    exact (h.reading i hi).snoc e
  handing i dst m hi := (h.handing i dst m hi).snoc e
  got k m dst hmem := by
    rw [List.mem_append, List.mem_singleton] at hmem
    rcases hmem with hmem | rfl
    · exact (h.got k m dst hmem).snoc e
    · exact absurd rfl (hgot k m dst)

theorem Copies.take (h : Copies uses serving tr) (hi : uses i = .none) (k : Nat) :
    Copies uses (Function.update serving i k) tr where
  reading j hj := by
    rw [Function.update_of_ne (by rintro rfl; rw [hi] at hj; cases hj)]
    exact h.reading j hj
  handing j dst m hj := by
    rw [Function.update_of_ne (by rintro rfl; rw [hi] at hj; cases hj)]
    exact h.handing j dst m hj
  got := h.got

theorem Copies.moves (h : Copies uses serving tr) {v : Use}
    (hreading : v = .reading → ReadAs tr (serving i) (logIn tr))
    (hhanding : ∀ dst m, v = .handing dst m → Handed tr (serving i) dst m) :
    Copies (Function.update uses i v) serving tr where
  reading j hj := by
    by_cases hji : j = i
    · subst j
      rw [Function.update_self] at hj
      exact hreading hj
    · rw [Function.update_of_ne hji] at hj
      exact h.reading j hj
  handing j dst m hj := by
    by_cases hji : j = i
    · subst j
      rw [Function.update_self] at hj
      exact hhanding dst m hj
    · rw [Function.update_of_ne hji] at hj
      exact h.handing j dst m hj
  got := h.got

theorem copies_change (hentries : text s.entries = logIn s.trace)
    (hcalling : Calling s.look s.rest s.session) (hlog : AtLog s.use s.rest)
    (h : Copies s.use s.serving s.trace) (hc : Change s s') :
    Copies s'.use s'.serving s'.trace := by
  have moves {μ : LogState (Fin n)} {i : Fin n} {v v' : Use} {es : List (Nat × Bytes)}
      {tr : List (Event n)} (hm : LogMoves s μ i v v' es)
      (hcopies : Copies (Function.update s.use i v') s.serving tr) :
      Copies (fun j => use (μ.place j)) s.serving tr := by
    rwa [funext hm.use]
  cases hc with
  | accepted | enqueued | returned | closed | finished | wrote | forked | output | duplicated | spawned
  | shut | ended =>
      exact h.snoc nofun nofun
  | @dequeued τ i req hm =>
      have hrest : s.rest i = none := hcalling.away (by rw [hm.old]; nofun)
      exact (h.take (hlog.away (by rw [hrest]; nofun)) _).snoc nofun nofun
  | logQuiet hm =>
      refine moves hm ?_
      rwa [← hm.old, Function.update_eq_self]
  | asks hm | adds hm | added hm => exact moves hm (h.moves nofun nofun)
  | @reads μ i hm =>
      have hlater : Copies s.use s.serving (s.trace ++ [.reads (s.serving i)]) := h.snoc nofun nofun
      refine moves hm (hlater.moves (fun _ => ⟨s.trace, [], rfl, ?_⟩) nofun)
      rw [logIn, logIn, loggedIn_other (e := .reads (s.serving i)) nofun]
  | @copied μ i dst m hm copy =>
      refine moves hm (h.moves nofun fun dst' m' heq => ?_)
      obtain ⟨rfl, rfl⟩ := Use.handing.inj heq
      obtain ⟨hdst, hm'⟩ := copy
      rw [hentries] at hdst hm'
      exact ⟨_, h.reading i hm.old, hdst, hm'⟩
  | @got μ i dst m k hm rest =>
      have hhanded := h.handing i dst m hm.old
      have hleft : Copies (Function.update s.use i .none) s.serving s.trace := h.moves nofun nofun
      refine moves hm ⟨fun j hj => ?_, fun j dst' m' hj => (hleft.handing j dst' m' hj).snoc _, ?_⟩
      · rw [logIn, loggedIn_other (e := .got (s.serving i) m dst) nofun]
        exact (hleft.reading j hj).snoc _
      · intro k' m' dst' hmem
        rw [List.mem_append, List.mem_singleton] at hmem
        rcases hmem with hmem | heq
        · exact (h.got k' m' dst' hmem).snoc _
        · obtain ⟨rfl, rfl, rfl⟩ := Event.got.inj heq
          exact hhanded.snoc _
  | @logged μ i c e hm unread =>
      refine moves hm ?_
      rw [← hm.old, Function.update_eq_self]
      refine ⟨fun j hj => absurd hj (unread j), fun j dst m hj => (h.handing j dst m hj).snoc _, ?_⟩
      intro k m dst hmem
      rw [List.mem_append, List.mem_singleton] at hmem
      exact (h.got k m dst (hmem.resolve_right nofun)).snoc _
  | _ => exact h

theorem copies_reachable (h : Reachable (start n junk cap byte listenfd) s) :
    Copies s.use s.serving s.trace :=
  h.changes (I := fun s => Copies s.use s.serving s.trace) ⟨nofun, nofun, nofun⟩
    fun _ _ hr _ hi hc => copies_change (text_entries hr) (calling_reachable hr) (atLog_reachable hr) hi hc

end WebServer.LogReaders
