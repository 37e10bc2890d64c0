import WebServer.LogBuffer

namespace WebServer.LogHistory

open Monitor ServerLog LogBuffer

inductive Move : Pc → Shared → Pc → Shared → Prop
  | callGet {d : Shared} : Move .idle d (.get d.calls .lock)
      { d with calls := d.calls + 1, trace := d.trace ++ [.callGet d.calls] }
  | callAdd {d : Shared} (data) (n) : Move .idle d (.addTest d.calls data n)
      { d with calls := d.calls + 1, trace := d.trace ++ [.callAdd d.calls data n] }
  | inGet {d : Shared} (c) (s s') (m : Mem) (r : Bool) :
      Move (.get c s) d (.get c s') { d with mem := m, running := r }
  | retGet {d : Shared} (c) (dst) (n) : Move (.get c (.ret dst n)) d .idle
      { d with trace := d.trace ++ [.retGet c dst n] }
  | ignore {d : Shared} (c) (data) (n : CInt) (h : data = none ∨ n.1 ≤ 0) :
      Move (.addTest c data n) d (.addRet c) d
  | accept {d : Shared} (c) (bs) (n : CInt) (h : 0 < n.1) :
      Move (.addTest c (some bs) n) d (.add c (.take bs n) .lock) d
  | inAdd {d : Shared} (c) (e) (s s') (m : Mem) (r : Bool) (h : afterSection s' = afterSection s) :
      Move (.add c e s) d (.add c e s') { d with mem := m, running := r }
  | wrote {d : Shared} (c) (e : Entry) (m : Mem) : Move (.add c e .clear) d (.add c e .testWaiting)
      { d with mem := m, trace := d.trace ++ [.wrote c e.bytes] }
  | unlock {d : Shared} (c) (e) : Move (.add c e .unlock) d (.addRet c) d
  | retAdd {d : Shared} (c) : Move (.addRet c) d .idle { d with trace := d.trace ++ [.retAdd c] }

theorem goes_move {p q : Pc} {d d' : Shared} (h : (code p).Goes d q d') : Move p d q d' := by
  cases goes_edge h with
  | callGet => exact .callGet
  | callAdd data n readable => exact .callAdd data n
  | ignore c data n none => exact .ignore c data n none
  | accept c bs n pos => exact .accept c bs n pos
  | retAdd c => exact .retAdd c
  | retGet c dst n => exact .retGet c dst n
  | wrote c e => exact .wrote c e _
  | writeUnlocked c e => exact .unlock c e
  | readLocked | readHeld | readFree | readWoken | readCounted | readUnlocked | allocated
  | readFailed | copyStarts | byteRead | copyDone | lengthRead | endReadLocked | readUncounted
  | lastReader | otherReaders | readSignalled | endReadUnlocked => exact .inGet _ _ _ _ _
  | _ => exact .inAdd _ _ _ _ _ _ rfl

def callNo : Pc → Option Nat
  | .idle => none
  | .get c _ | .addTest c _ _ | .add c _ _ | .addRet c => some c

def Event.number : Event → Nat
  | .callGet c | .retGet c _ _ | .callAdd c _ _ | .wrote c _ | .retAdd c => c

structure Numbered {Tid : Type} (place : Tid → Pc) (d : Shared) : Prop where
  below : ∀ t c, callNo (place t) = some c → c < d.calls
  distinct : ∀ t u c, callNo (place t) = some c → callNo (place u) = some c → t = u
  events : ∀ e ∈ d.trace, Event.number e < d.calls

variable {Tid : Type} [DecidableEq Tid] {place : Tid → Pc} {p q : Pc} {d d' : Shared} {t : Tid}

theorem Numbered.keep (h : Numbered place d) (hq : callNo q = none ∨ callNo q = callNo (place t))
    (hc : d'.calls = d.calls) (ht : ∀ e ∈ d'.trace, e ∈ d.trace ∨ callNo (place t) = some (Event.number e)) :
    Numbered (Function.update place t q) d' := by
  have hold {u c} (hu : callNo (Function.update place t q u) = some c) :
      callNo (place u) = some c := by
    by_cases hut : u = t
    · subst u
      rw [Function.update_self] at hu
      rcases hq with hq | hq
      · simp [hq] at hu
      · rw [← hq, hu]
    · rwa [Function.update_of_ne hut] at hu
  refine ⟨fun u c hu => hc ▸ h.below u c (hold hu),
    fun u v c hu hv => h.distinct u v c (hold hu) (hold hv), fun e he => ?_⟩
  rw [hc]
  rcases ht e he with he | he
  · exact h.events e he
  · exact h.below t _ he

theorem Numbered.call (h : Numbered place d) (hq : callNo q = some d.calls) {e : Event}
    (he : Event.number e = d.calls) (hc : d'.calls = d.calls + 1) (ht : d'.trace = d.trace ++ [e]) :
    Numbered (Function.update place t q) d' := by
  have hold {u c} (hu : callNo (Function.update place t q u) = some c) :
      (u = t ∧ c = d.calls) ∨ (u ≠ t ∧ callNo (place u) = some c) := by
    by_cases hut : u = t
    · subst u
      rw [Function.update_self, hq] at hu
      exact .inl ⟨rfl, (Option.some.inj hu).symm⟩
    · rw [Function.update_of_ne hut] at hu
      exact .inr ⟨hut, hu⟩
  refine ⟨fun u c hu => ?_, fun u v c hu hv => ?_, fun x hx => ?_⟩
  · rcases hold hu with ⟨-, rfl⟩ | ⟨-, hu⟩
    · omega
    · have := h.below u c hu; omega
  · rcases hold hu with ⟨hut, rfl⟩ | ⟨-, hu'⟩ <;> rcases hold hv with ⟨hvt, hc'⟩ | ⟨-, hv'⟩
    · exact hut.trans hvt.symm
    · have := h.below v _ hv'; omega
    · have := h.below u _ hu'; omega
    · exact h.distinct u v c hu' hv'
  · rw [ht, List.mem_append, List.mem_singleton] at hx
    rcases hx with hx | rfl
    · have := h.events x hx; omega
    · omega

theorem numbered_move (h : Numbered place d) (hm : Move (place t) d q d') :
    Numbered (Function.update place t q) d' := by
  generalize hp : place t = p at hm
  cases hm with
  | callGet | callAdd => exact h.call rfl rfl rfl rfl
  | inGet | ignore | accept | inAdd | unlock =>
      exact h.keep (.inr (by rw [hp]; rfl)) rfl fun e he => .inl he
  | wrote =>
      refine h.keep (.inr (by rw [hp]; rfl)) rfl fun e he => ?_
      rw [List.mem_append, List.mem_singleton] at he
      rcases he with he | rfl
      · exact .inl he
      · exact .inr (by rw [hp]; rfl)
  | retGet | retAdd =>
      refine h.keep (.inl rfl) rfl fun e he => ?_
      rw [List.mem_append, List.mem_singleton] at he
      rcases he with he | rfl
      · exact .inl he
      · exact .inr (by rw [hp]; rfl)

def Adding (tr : List Event) : Pc → Prop
  | .addTest c data n => .callAdd c data n ∈ tr ∧ c ∉ (entries tr).map Prod.fst
  | .add c e s => (∃ bs n, .callAdd c (some bs) n ∈ tr ∧ 0 < n.1 ∧ e = .take bs n) ∧
      if afterSection s then (c, e.bytes) ∈ entries tr else c ∉ (entries tr).map Prod.fst
  | .addRet c => ∀ bs n, .callAdd c (some bs) n ∈ tr → 0 < n.1 → (c, (Entry.take bs n).bytes) ∈ entries tr
  | _ => True

/-- Every entry is the data of one call, is written once, and is written before
its call returns. -/
structure History {Tid : Type} (place : Tid → Pc) (tr : List Event) : Prop where
  once : ∀ k data n data' n', .callAdd k data n ∈ tr → .callAdd k data' n' ∈ tr → data = data' ∧ n = n'
  adding : ∀ t, Adding tr (place t)
  nodup : ((entries tr).map Prod.fst).Nodup
  justified : ∀ k e, (k, e) ∈ entries tr →
    ∃ bs n, .callAdd k (some bs) n ∈ tr ∧ 0 < n.1 ∧ e = (Entry.take bs n).bytes
  returned : ∀ pre post k, tr = pre ++ .retAdd k :: post →
    ∀ bs n, .callAdd k (some bs) n ∈ tr → 0 < n.1 → (k, (Entry.take bs n).bytes) ∈ entries pre

theorem snoc_split {α : Type} {tr pre post : List α} {e x : α} (h : tr ++ [e] = pre ++ x :: post) :
    (∃ post', post = post' ++ [e] ∧ tr = pre ++ x :: post') ∨ (e = x ∧ tr = pre) := by
  rcases List.eq_nil_or_concat post with rfl | ⟨post', y, rfl⟩
  · obtain ⟨htr, hx⟩ := List.append_inj' h rfl
    exact .inr ⟨by simpa using hx, htr⟩
  · rw [List.concat_eq_append, ← List.cons_append, ← List.append_assoc] at h
    obtain ⟨htr, hx⟩ := List.append_inj' h rfl
    obtain rfl : e = y := by simpa using hx
    exact .inl ⟨post', by simp, htr⟩

theorem adding_append {tr : List Event} {e : Event} {p : Pc} (h : Adding tr p)
    (hn : ∀ c, callNo p = some c → c ≠ Event.number e) : Adding (tr ++ [e]) p := by
  have hids {c} (hc : c ≠ Event.number e) (h : c ∉ (entries tr).map Prod.fst) :
      c ∉ (entries (tr ++ [e])).map Prod.fst := by
    rw [entries_append, List.map_append, List.mem_append, not_or]
    refine ⟨h, ?_⟩
    cases e <;> simp_all [entries, Event.number]
  have hmem {x} (h : x ∈ entries tr) : x ∈ entries (tr ++ [e]) := by
    rw [entries_append]; exact List.mem_append_left _ h
  cases p with
  | idle | get => trivial
  | addTest c data n => exact ⟨List.mem_append_left _ h.1, hids (hn c rfl) h.2⟩
  | add c x s =>
      obtain ⟨⟨bs, n, hc, hpos, hx⟩, hs⟩ := h
      refine ⟨⟨bs, n, List.mem_append_left _ hc, hpos, hx⟩, ?_⟩
      split at hs
      · next ha => rw [if_pos ha]; exact hmem hs
      · next ha => rw [if_neg ha]; exact hids (hn c rfl) hs
  | addRet c =>
      intro bs n hc hpos
      rw [List.mem_append, List.mem_singleton] at hc
      rcases hc with hc | rfl
      · exact hmem (h bs n hc hpos)
      · exact absurd rfl (hn c rfl)

theorem History.keep {tr : List Event} (h : History place tr) (hq : Adding tr q) :
    History (Function.update place t q) tr where
  once := h.once
  adding u := by
    by_cases hu : u = t
    · subst u; rwa [Function.update_self]
    · rw [Function.update_of_ne hu]; exact h.adding u
  nodup := h.nodup
  justified := h.justified
  returned := h.returned

theorem History.event (h : History place d.trace) (hn : Numbered place d) {e : Event}
    (hent : entries [e] = []) (hret : ∀ k, e ≠ .retAdd k) (hq : Adding (d.trace ++ [e]) q)
    (hnum : ∀ u ≠ t, callNo (place u) ≠ some (Event.number e))
    (hone : ∀ k data n, e = .callAdd k data n → k = d.calls) :
    History (Function.update place t q) (d.trace ++ [e]) where
  once k data n data' n' ha hb := by
    rw [List.mem_append, List.mem_singleton] at ha hb
    have hnew {data n} (he : Event.callAdd k data n = e) {data' n'} (hb : .callAdd k data' n' ∈ d.trace) :
        False := by
      have hlt := hn.events _ hb
      have hk := hone k data n he.symm
      simp only [Event.number] at hlt
      omega
    rcases ha with ha | ha <;> rcases hb with hb | hb
    · exact h.once k data n data' n' ha hb
    · exact (hnew hb ha).elim
    · exact (hnew ha hb).elim
    · rw [← ha] at hb; cases hb; exact ⟨rfl, rfl⟩
  adding u := by
    by_cases hu : u = t
    · subst u; rwa [Function.update_self]
    · rw [Function.update_of_ne hu]
      apply adding_append (h.adding u)
      intro c hc
      rintro rfl
      exact hnum u hu hc
  nodup := by rw [entries_append, hent, List.append_nil]; exact h.nodup
  justified k e hk := by
    rw [entries_append, hent, List.append_nil] at hk
    obtain ⟨bs, n, hc, hpos, he⟩ := h.justified k e hk
    exact ⟨bs, n, List.mem_append_left _ hc, hpos, he⟩
  returned pre post k hs bs n hc hpos := by
    rcases snoc_split hs with ⟨post', -, htr⟩ | ⟨rfl, -⟩
    · refine h.returned pre post' k htr bs n ?_ hpos
      rw [List.mem_append, List.mem_singleton] at hc
      rcases hc with hc | rfl
      · exact hc
      · have hlt := hn.events (.retAdd k) (by rw [htr]; simp)
        have hk := hone k (some bs) n rfl
        simp only [Event.number] at hlt
        omega
    · exact absurd rfl (hret k)

theorem history_wrote {c : Nat} {e : Entry} (hp : place t = .add c e .clear)
    (h : History place d.trace) (hn : Numbered place d) :
    History (Function.update place t (.add c e .testWaiting)) (d.trace ++ [.wrote c e.bytes]) := by
  have hent : entries (d.trace ++ [.wrote c e.bytes]) = entries d.trace ++ [(c, e.bytes)] :=
    entries_append _ _
  have hcall {k data n} : Event.callAdd k data n ∈ d.trace ++ [.wrote c e.bytes] ↔
      .callAdd k data n ∈ d.trace := by simp
  have hme := h.adding t
  rw [hp] at hme
  obtain ⟨⟨bs, n, hc, hpos, he⟩, hids⟩ := hme
  have hids : c ∉ (entries d.trace).map Prod.fst := hids
  refine ⟨fun k data n data' n' ha hb => h.once k data n data' n' (hcall.1 ha) (hcall.1 hb), ?_, ?_,
    ?_, ?_⟩
  · intro u
    by_cases hu : u = t
    · subst u
      rw [Function.update_self]
      refine ⟨⟨bs, n, hcall.2 hc, hpos, he⟩, ?_⟩
      rw [hent]
      exact List.mem_append_right _ (List.mem_singleton.2 rfl)
    · rw [Function.update_of_ne hu]
      apply adding_append (h.adding u)
      intro k hk
      rintro rfl
      exact hu (hn.distinct u t _ hk (by rw [hp]; rfl))
  · rw [hent, List.map_append]
    exact List.nodup_append.2 ⟨h.nodup, by simp, by
      intro a ha b hb
      obtain rfl : b = c := by simpa using hb
      rintro rfl
      exact hids ha⟩
  · intro k x hk
    rw [hent, List.mem_append, List.mem_singleton] at hk
    rcases hk with hk | hk
    · obtain ⟨bs, n, hc, hpos, hx⟩ := h.justified k x hk
      exact ⟨bs, n, hcall.2 hc, hpos, hx⟩
    · obtain ⟨rfl, rfl⟩ := Prod.mk.inj hk
      exact ⟨bs, n, hcall.2 hc, hpos, by rw [he]⟩
  · intro pre post k hs bs n hc hpos
    rcases snoc_split hs with ⟨post', -, hs⟩ | ⟨he, -⟩
    · exact h.returned pre post' k hs bs n (hcall.1 hc) hpos
    · simp at he

theorem history_retAdd {c : Nat} (hp : place t = .addRet c) (h : History place d.trace)
    (hn : Numbered place d) :
    History (Function.update place t .idle) (d.trace ++ [.retAdd c]) := by
  have hent : entries (d.trace ++ [.retAdd c]) = entries d.trace := by
    rw [entries_append]; exact List.append_nil _
  have hcall {k data n} : Event.callAdd k data n ∈ d.trace ++ [.retAdd c] ↔
      .callAdd k data n ∈ d.trace := by simp
  have hme := h.adding t
  rw [hp] at hme
  refine ⟨fun k data n data' n' ha hb => h.once k data n data' n' (hcall.1 ha) (hcall.1 hb), ?_,
    by rw [hent]; exact h.nodup, ?_, ?_⟩
  · intro u
    by_cases hu : u = t
    · subst u; rw [Function.update_self]; trivial
    · rw [Function.update_of_ne hu]
      apply adding_append (h.adding u)
      intro k hk
      rintro rfl
      exact hu (hn.distinct u t _ hk (by rw [hp]; rfl))
  · intro k x hk
    obtain ⟨bs, n, hc, hpos, hx⟩ := h.justified k x (hent ▸ hk)
    exact ⟨bs, n, hcall.2 hc, hpos, hx⟩
  · intro pre post k hs bs n hc hpos
    rcases snoc_split hs with ⟨post', -, hs⟩ | ⟨he, rfl⟩
    · exact h.returned pre post' k hs bs n (hcall.1 hc) hpos
    · obtain rfl : c = k := by simpa using he
      exact hme bs n (hcall.1 hc) hpos

theorem history_move (h : History place d.trace) (hn : Numbered place d)
    (hm : Move (place t) d q d') : History (Function.update place t q) d'.trace := by
  have other {c} (hc : callNo (place t) = some c) : ∀ u ≠ t, callNo (place u) ≠ some c :=
    fun u hu hc' => hu (hn.distinct u t c hc' hc)
  have fresh : ∀ u ≠ t, callNo (place u) ≠ some d.calls := fun u _ hc => by
    have := hn.below u _ hc; omega
  have hme := h.adding t
  generalize hp : place t = p at hm
  rw [hp] at hme
  cases hm with
  | callGet => exact h.event hn rfl (by simp) trivial fresh (by simp)
  | callAdd data n =>
      refine h.event hn rfl (by simp) ⟨by simp, ?_⟩ fresh (by simp +contextual)
      rw [entries_append, List.map_append, List.mem_append, not_or]
      refine ⟨fun hmem => ?_, by simp [entries]⟩
      obtain ⟨⟨k, x⟩, hk, rfl⟩ := List.mem_map.1 hmem
      obtain ⟨bs, m, hc, -⟩ := h.justified _ _ hk
      have := hn.events _ hc
      simp [Event.number] at this
  | inGet => exact h.keep trivial
  | retGet c dst n => exact h.event hn rfl (by simp) trivial (other (by rw [hp]; rfl)) (by simp)
  | ignore c data n hi =>
      apply h.keep
      intro bs m hc hpos
      obtain ⟨rfl, rfl⟩ := h.once _ _ _ _ _ hme.1 hc
      rcases hi with hi | hi
      · simp at hi
      · omega
  | accept c bs n hpos => exact h.keep ⟨⟨bs, n, hme.1, hpos, rfl⟩, hme.2⟩
  | inAdd c e s s' m r hs => exact h.keep ⟨hme.1, by rw [hs]; exact hme.2⟩
  | wrote c e m => exact history_wrote hp h hn
  | unlock c e =>
      obtain ⟨⟨bs, n, hc, -, he⟩, hmem⟩ := hme
      apply h.keep
      intro bs' n' hc' _
      obtain ⟨hb, rfl⟩ := h.once _ _ _ _ _ hc hc'
      obtain rfl := Option.some.inj hb
      rw [← he]
      exact hmem
  | retAdd c => exact history_retAdd hp h hn

theorem history_reachable {byte : Nat → Byte} {σ : LogState Tid}
    (h : Reachable (machine Tid) (start Tid byte) σ) :
    Numbered σ.place σ.data ∧ History σ.place σ.data.trace := by
  refine h.place_invariant (I := fun f d => Numbered f d ∧ History f d.trace) ⟨?_, ?_⟩ ?_
  · exact ⟨fun t c hc => by simp [start, State.place, Phase.place, callNo] at hc,
      fun t u c hc => by simp [start, State.place, Phase.place, callNo] at hc,
      fun e he => by simp [start, createLog] at he⟩
  · exact ⟨by simp [start, createLog], fun t => trivial, by simp [start, createLog, entries],
      by simp [start, createLog, entries], by simp [start, createLog]⟩
  · rintro f d t q d' ⟨hn, hh⟩ hg
    have hm := goes_move hg
    exact ⟨numbered_move hn hm, history_move hh hn hm⟩

end WebServer.LogHistory
