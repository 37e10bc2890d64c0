import WebServer.Alone
import WebServer.LogContent

namespace WebServer.LogCalls

open Monitor ServerLog LogLock LogBuffer LogContent

variable {Tid : Type} {t : Tid} {c : Nat} {e : Entry} {p q r : Pc}
  {d d' d'' : Shared}

/-- The process goes on, and no thread has taken the lock or waits for it. -/
structure Calm (d : Shared) : Prop where
  live : d.running = true
  readers : d.log.readers = 0
  writers : d.log.writers = 0
  waiting : d.log.waitingWriters = 0

structure Same (d d' : Shared) : Prop where
  readers : d'.log.readers = d.log.readers
  writers : d'.log.writers = d.log.writers
  waiting : d'.log.waitingWriters = d.log.waitingWriters
  trace : d'.trace = d.trace
  running : d'.running = d.running

theorem Same.trans (h : Same d d') (h' : Same d' d'') : Same d d'' :=
  ⟨h'.readers.trans h.readers, h'.writers.trans h.writers, h'.waiting.trans h.waiting,
    h'.trace.trans h.trace, h'.running.trans h.running⟩

theorem path_stmt {f : (Nat → Byte) → Shared → Shared × Pc} (hc : code p = stmt f)
    (live : d.running = true) (hd : (f (fun _ => 0) d).1 = d') (hq : (f (fun _ => 0) d).2 = q)
    (rest : Path (machine Tid) t q d' r d'') : Path (machine Tid) t p d r d'' := by
  have hp : (machine Tid).code t p = stmt f := hc
  refine .cons live (fun _ _ h => ?_) ?_ rest
  · rw [hp, stmt] at h
    cases h
  · rw [hp]
    exact goes_stmt.2 ⟨fun _ => 0, hd.symm, hq.symm⟩

theorem path_malloc {size : Shared → Nat} {f : (Nat → Byte) → Shared → Shared × Pc}
    (hc : code p = Malloc p size f) (live : d.running = true) (hsize : size d < 2 ^ 63)
    (hd : (f (fun _ => 0) d).1 = d') (hq : (f (fun _ => 0) d).2 = q)
    (rest : Path (machine Tid) t q d' r d'') : Path (machine Tid) t p d r d'' := by
  have hp : (machine Tid).code t p = Malloc p size f := hc
  refine .cons live (fun _ _ h => ?_) ?_ rest
  · rw [hp, Malloc] at h
    cases h
  · rw [hp]
    exact goes_malloc.2 (.inl ⟨hsize, fun _ => 0, hd.symm, hq.symm⟩)

theorem path_growLoop {m : Nat} (live : d.running = true) (hm : Wanted m)
    (hneed : sizeT (d.log.size + e.bytes.length + 1) < 2 ^ 63) :
    ∃ m', sizeT (d.log.size + e.bytes.length + 1) ≤ m' ∧
      (m' = m ∨ m' < 2 * sizeT (d.log.size + e.bytes.length + 1)) ∧
      Path (machine Tid) t (.add c e (.growLoop m)) d (.add c e (.malloc m')) d := by
  generalize hn : sizeT (d.log.size + e.bytes.length + 1) = need at hneed
  induction hk : need - m using Nat.strong_induction_on generalizing m with
  | _ k ih =>
      by_cases hlt : m < need
      · have hlow := hm.low
        obtain ⟨hwanted, hsmall⟩ := (hm.doubled (by omega)).double
        rw [hsmall] at hwanted
        obtain ⟨m', hle, hmin, h⟩ := ih _ (by omega) hwanted rfl
        refine ⟨m', hle, .inr (by omega), path_stmt rfl live rfl ?_ h⟩
        simp only [hn, if_pos hlt, hsmall]
      · exact ⟨m, not_lt.1 hlt, .inl rfl,
          path_stmt rfl live rfl (by simp only [hn, if_neg hlt]) (.nil _ _)⟩

theorem path_copyOld {m new src n i : Nat} (live : d.running = true) (hi : i ≤ n) : ∃ d',
    Path (machine Tid) t (.add c e (.copyOld m new src n i)) d (.add c e (.free m new)) d' ∧
      Same d d' := by
  induction hk : n - i generalizing i d with
  | zero =>
      have hn : ¬ i < n := by omega
      refine ⟨d, ?_, rfl, rfl, rfl, rfl, rfl⟩
      exact path_stmt rfl live (by simp only [if_neg hn]) (by simp only [if_neg hn]) (.nil _ _)
  | succ k ih =>
      have hn : i < n := by omega
      obtain ⟨d', h, hs⟩ := @ih { d with mem := d.mem.store new i (d.mem.load src i 0) }
        (i + 1) live (by omega) (by omega)
      refine ⟨d', ?_, hs.readers, hs.writers, hs.waiting, hs.trace, hs.running⟩
      exact path_stmt rfl live (by simp only [if_pos hn]) (by simp only [if_pos hn]) h

theorem path_copying {dst off i : Nat} (live : d.running = true) (hi : i ≤ e.bytes.length) : ∃ d',
    Path (machine Tid) t (.add c e (.copying dst off i)) d (.add c e .addSize) d' ∧ Same d d' := by
  induction hk : e.bytes.length - i generalizing i d with
  | zero =>
      have hn : e.bytes[i]? = none := List.getElem?_eq_none (by omega)
      refine ⟨d, ?_, rfl, rfl, rfl, rfl, rfl⟩
      exact path_stmt rfl live (by simp only [hn]) (by simp only [hn]) (.nil _ _)
  | succ k ih =>
      have hb : e.bytes[i]? = some e.bytes[i] := List.getElem?_eq_getElem (by omega)
      obtain ⟨d', h, hs⟩ := @ih { d with mem := d.mem.store dst (off + i) e.bytes[i] }
        (i + 1) live (by omega) (by omega)
      refine ⟨d', ?_, hs.readers, hs.writers, hs.waiting, hs.trace, hs.running⟩
      exact path_stmt rfl live (by simp only [hb]) (by simp only [hb]) h

theorem path_getCopying {cap src n i : Nat} {dst : List Byte} (live : d.running = true)
    (hi : i ≤ n) : ∃ dst',
    Path (machine Tid) t (.get c (.copying cap src n i dst)) d (.get c (.result dst')) d := by
  induction hk : n - i generalizing i dst with
  | zero =>
      have hn : ¬ i < n := by omega
      exact ⟨dst, path_stmt rfl live rfl (by simp only [if_neg hn]) (.nil _ _)⟩
  | succ k ih =>
      have hn : i < n := by omega
      obtain ⟨dst', h⟩ := @ih (i + 1) (if i < cap then dst ++ [d.mem.load src i 0] else dst)
        (by omega) (by omega)
      exact ⟨dst', path_stmt rfl live rfl (by simp only [if_pos hn]) h⟩

theorem path_skip (i : LogInstr) (hc : code p = i) (live : d.running = true) (hg : i.Goes d q d)
    (hb : ∀ cond s, i ≠ .wait cond s) (rest : Path (machine Tid) t q d r d') :
    Path (machine Tid) t p d r d' := by
  have hp : (machine Tid).code t p = i := hc
  exact .cons live (by rw [hp]; exact hb) (by rw [hp]; exact hg) rest

theorem path_grow (live : d.running = true) (hcap : Doubled d.log.capacity)
    (hneed : sizeT (d.log.size + e.bytes.length + 1) < 2 ^ 62) : ∃ d',
    Path (machine Tid) t (.add c e .grow) d (.add c e .memcpy) d' ∧ Same d d' := by
  by_cases hfit : sizeT (d.log.size + e.bytes.length + 1) ≥ d.log.capacity
  · obtain ⟨hwanted, hsmall⟩ := hcap.double
    obtain ⟨m, -, hmin, hloop⟩ := @path_growLoop Tid t c e d _ live hwanted (by omega)
    obtain ⟨d₁, hcopy, hs⟩ := @path_copyOld Tid t c e { d with mem := d.mem.alloc m fun _ => 0 }
      m d.mem.brk d.log.buffer _ _ live (Nat.zero_le d.log.size)
    have live₁ : d₁.running = true := hs.running.trans live
    have hend : Path (machine Tid) t (.add c e (.free m d.mem.brk)) d₁ (.add c e .memcpy) _ :=
      path_stmt rfl live₁ rfl rfl
        (path_stmt rfl live₁ rfl rfl (path_stmt rfl live₁ rfl rfl (.nil _ _)))
    refine ⟨_, path_stmt rfl live rfl (by simp only [if_pos hfit])
      (hloop.trans (path_malloc rfl live ?_ rfl rfl (hcopy.trans hend))), ?_⟩
    · show m < 2 ^ 63
      omega
    · exact ⟨hs.readers, hs.writers, hs.waiting, hs.trace, hs.running⟩
  · refine ⟨d, ?_, rfl, rfl, rfl, rfl, rfl⟩
    exact path_stmt rfl live rfl (by simp only [if_neg hfit]) (.nil _ _)

theorem path_enter (h : Calm d) : ∃ d',
    Path (machine Tid) t (.add c e .lock) d (.add c e .grow) d' ∧ d'.running = true ∧
      d'.log.readers = 0 ∧ d'.log.waitingWriters = 0 ∧ d'.log.capacity = d.log.capacity ∧
      d'.log.size = d.log.size ∧ d'.trace = d.trace := by
  obtain ⟨live, hr, hw, hq⟩ := h
  have hfree : ¬ (d.log.readers > 0 ∨ d.log.writers > 0) := by simp [hr, hw]
  refine ⟨{ d with
    mem.log.waitingWriters := d.log.waitingWriters + 1 - 1
    mem.log.writers := 1 }, ?_, live, hr, by simp [hq], rfl, rfl, rfl⟩
  refine path_skip (.lock _) rfl live ⟨rfl, rfl⟩ (by simp) ?_
  refine path_stmt rfl live rfl rfl ?_
  refine path_stmt rfl live rfl (congrArg (Pc.add c e) (if_neg hfree)) ?_
  refine path_stmt rfl live rfl rfl ?_
  exact path_stmt rfl live rfl rfl (.nil _ _)

theorem path_leave (live : d.running = true) (hr : d.log.readers = 0)
    (hq : d.log.waitingWriters = 0) : ∃ d',
    Path (machine Tid) t (.add c e .addSize) d .idle d' ∧ Calm d' ∧
      entries d'.trace = entries d.trace ++ [(c, e.bytes)] := by
  have hnone : ¬ d.log.waitingWriters > 0 := by simp [hq]
  refine ⟨{ d with
    mem := { d.mem.store d.log.buffer (sizeT (d.log.size + e.bytes.length)) 0 with
      log.size := sizeT (d.log.size + e.bytes.length)
      log.writers := 0 }
    trace := d.trace ++ [.wrote c e.bytes] ++ [.retAdd c] }, ?_, ⟨live, hr, rfl, hq⟩, ?_⟩
  · refine path_stmt rfl live rfl rfl ?_
    refine path_stmt rfl live rfl rfl ?_
    refine path_stmt rfl live rfl rfl ?_
    refine path_stmt rfl live rfl (congrArg (Pc.add c e) (if_neg hnone)) ?_
    refine path_skip (.broadcast .readersCond _) rfl live ⟨rfl, rfl⟩ (by simp) ?_
    refine path_skip (.unlock _) rfl live ⟨rfl, rfl⟩ (by simp) ?_
    exact path_stmt rfl live rfl rfl (.nil _ _)
  · rw [entries_append, entries_append]
    exact List.append_nil _

theorem path_call {bs : List Byte} {n : CInt} (live : d.running = true)
    (hread : Readable (some bs) n) (hpos : 0 < n.1) :
    Path (machine Tid) t .idle d (.add d.calls (Entry.take bs n) .lock)
      { d with calls := d.calls + 1, trace := d.trace ++ [.callAdd d.calls (some bs) n] } := by
  refine Path.cons live (by simp [machine, code]) ⟨.addToLog (some bs) n, if_pos hread⟩ ?_
  exact path_stmt rfl live rfl (by simp only [if_neg (not_le.2 hpos)]) (.nil _ _)

theorem path_add (h : Calm d) (hcap : Doubled d.log.capacity) {bs : List Byte} {n : CInt}
    (hread : Readable (some bs) n) (hpos : 0 < n.1)
    (hneed : sizeT (d.log.size + (Entry.take bs n).bytes.length + 1) < 2 ^ 62) : ∃ d',
    Path (machine Tid) t .idle d .idle d' ∧ Calm d' ∧
      entries d'.trace = entries d.trace ++ [(d.calls, (Entry.take bs n).bytes)] := by
  generalize he : Entry.take bs n = e at hneed
  generalize hcall : ({ d with
    calls := d.calls + 1, trace := d.trace ++ [.callAdd d.calls (some bs) n] } : Shared) = d₁
  have h₁ : Calm d₁ := by
    rw [← hcall]
    exact ⟨h.live, h.readers, h.writers, h.waiting⟩
  obtain ⟨d₂, henter, hl₂, hr₂, hq₂, hc₂, hs₂, ht₂⟩ := @path_enter Tid t d.calls e d₁ h₁
  have hcap₂ : Doubled d₂.log.capacity := by rwa [hc₂, ← hcall]
  have hneed₂ : sizeT (d₂.log.size + e.bytes.length + 1) < 2 ^ 62 := by rwa [hs₂, ← hcall]
  obtain ⟨d₃, hgrow, hs₃⟩ := @path_grow Tid t d.calls e d₂ hl₂ hcap₂ hneed₂
  have hl₃ := hs₃.running.trans hl₂
  obtain ⟨d₄, hcopy, hs₄⟩ :=
    @path_copying Tid t d.calls e d₃ d₃.log.buffer d₃.log.size _ hl₃ (Nat.zero_le _)
  have hs := hs₃.trans hs₄
  obtain ⟨d', hleave, hcalm, hlog⟩ := @path_leave Tid t d.calls e d₄ (hs.running.trans hl₂)
    (hs.readers.trans hr₂) (hs.waiting.trans hq₂)
  refine ⟨d', ?_, hcalm, ?_⟩
  · have hfirst : Path (machine Tid) t .idle d (.add d.calls e .lock) d₁ := by
      rw [← hcall, ← he]
      exact path_call h.live hread hpos
    apply hfirst.trans
    apply henter.trans
    apply hgrow.trans
    refine path_stmt rfl hl₃ rfl rfl ?_
    exact hcopy.trans hleave
  · rw [hlog, hs.trace, ht₂, ← hcall, entries_append]
    exact congrArg (· ++ _) (List.append_nil _)

theorem path_get (h : Calm d) (hsize : sizeT (d.log.size + 1) < 2 ^ 63) : ∃ d' dst,
    Path (machine Tid) t .idle d .idle d' ∧
    d'.trace = d.trace ++ [.callGet d.calls] ++ [.retGet d.calls dst (int32 d.log.size)] := by
  obtain ⟨live, hr, hw, hq⟩ := h
  have hfree : ¬ (d.log.writers > 0 ∨ d.log.waitingWriters > 0) := by simp [hw, hq]
  have hlast : d.log.readers + 1 - 1 = 0 := by simp [hr]
  obtain ⟨dst, hcopy⟩ := @path_getCopying Tid t d.calls { d with
    calls := d.calls + 1
    trace := d.trace ++ [.callGet d.calls]
    mem.log.readers := d.log.readers + 1 } (sizeT (d.log.size + 1)) d.log.buffer
    (sizeT (d.log.size + 1)) _ [] live (Nat.zero_le _)
  refine ⟨{ d with
    calls := d.calls + 1
    trace := d.trace ++ [.callGet d.calls] ++ [.retGet d.calls dst (int32 d.log.size)]
    mem.log.readers := d.log.readers + 1 - 1 }, dst, ?_, rfl⟩
  refine Path.cons live (by simp [machine, code]) ⟨.getLog, rfl⟩ ?_
  refine path_skip (.lock _) rfl live ⟨rfl, rfl⟩ (by simp) ?_
  refine path_stmt rfl live rfl (congrArg (Pc.get d.calls) (if_neg hfree)) ?_
  refine path_stmt rfl live rfl rfl ?_
  refine path_skip (.unlock _) rfl live ⟨rfl, rfl⟩ (by simp) ?_
  refine path_malloc rfl live hsize rfl rfl ?_
  refine path_stmt rfl live rfl rfl ?_
  apply hcopy.trans
  refine path_stmt rfl live rfl rfl ?_
  refine path_skip (.lock _) rfl live ⟨rfl, rfl⟩ (by simp) ?_
  refine path_stmt rfl live rfl rfl ?_
  refine path_stmt rfl live rfl (congrArg (Pc.get d.calls) (if_pos hlast)) ?_
  refine path_skip (.signal .writersCond _) rfl live ⟨rfl, rfl⟩ (by simp) ?_
  refine path_skip (.unlock _) rfl live ⟨rfl, rfl⟩ (by simp) ?_
  exact path_stmt rfl live rfl rfl (.nil _ _)

def lengthOf (bs : List Byte) (h : bs.length < 2 ^ 31) : CInt := ⟨bs.length, by omega⟩

theorem take_lengthOf (bs : List Byte) (h : bs.length < 2 ^ 31) :
    (Entry.take bs (lengthOf bs h)).bytes = bs :=
  List.take_of_length_le (by simp [lengthOf])

theorem readable_lengthOf (bs : List Byte) (h : bs.length < 2 ^ 31) :
    Readable (some bs) (lengthOf bs h) := by
  intro bs' hbs
  obtain rfl := Option.some.inj hbs
  exact Int.le_refl _

theorem logged_eq_flatten (tr : List Event) : logged tr = ((entries tr).map Prod.snd).flatten := by
  rw [logged, text, List.flatMap_def]

variable [DecidableEq Tid] {byte : Nat → Byte}

theorem start_alone (t : Tid) : start Tid byte = alone LogLock.holds .idle t .idle (createLog byte) := by
  simp [start, alone, LogLock.holds]

theorem path_reachable (h : Path (machine Tid) t .idle (createLog byte) p d) :
    Reachable (machine Tid) (start Tid byte) (alone LogLock.holds .idle t p d) := by
  rw [start_alone t]
  exact h.reachable (fun _ => LogLock.code_bracketed) .idle

theorem path_rep (h : Path (machine Tid) t .idle (createLog byte) .idle d) :
    Rep d.mem (logged d.trace) ∧ Doubled d.log.capacity :=
  (sized_annotated (path_reachable h)).1 rfl

theorem path_adds (t : Tid) (bss : List (List Byte))
    (hlen : ∀ bs ∈ bss, 0 < bs.length ∧ bs.length < 2 ^ 31) (htotal : bss.flatten.length + 1 < 2 ^ 62) :
    ∃ d, Path (machine Tid) t .idle (createLog byte) .idle d ∧ Calm d ∧
      (entries d.trace).map Prod.snd = bss := by
  induction bss using List.reverseRecOn with
  | nil => exact ⟨_, .nil _ _, ⟨rfl, rfl, rfl, rfl⟩, rfl⟩
  | append_singleton bss bs ih =>
      rw [List.flatten_append, List.flatten_singleton, List.length_append] at htotal
      obtain ⟨hpos, hfits⟩ := hlen bs (by simp)
      obtain ⟨d, hpath, hcalm, hlog⟩ := ih (fun x hx => hlen x (by simp [hx])) (by omega)
      obtain ⟨hrep, hcap⟩ := path_rep hpath
      have hsize : d.log.size = bss.flatten.length := by rw [← hlog, ← logged_eq_flatten]; exact hrep.size
      have hneed : sizeT (d.log.size + (Entry.take bs (lengthOf bs hfits)).bytes.length + 1) <
          2 ^ 62 := by
        rw [take_lengthOf, hsize, sizeT_small (by omega)]
        omega
      obtain ⟨d', hadd, hcalm', hlog'⟩ :=
        path_add hcalm hcap (readable_lengthOf bs hfits) (Int.natCast_pos.2 hpos) hneed
      refine ⟨d', hpath.trans hadd, hcalm', ?_⟩
      rw [hlog', List.map_append, hlog, take_lengthOf]
      rfl

end WebServer.LogCalls
