import Mathlib.Data.List.TakeWhile
import WebServer.Framing
import WebServer.LogCalls
import WebServer.Timevals

namespace WebServer.StatsText

open Monitor ServerLog LogBuffer LogContent LogCalls
open Message Process RequestHandle Answers Timevals
open RequestQueue (Timeval ThreadsStats)

/-- `sprintf(buf + offset, …)`: the array afterwards, and the number of characters. -/
def sprintf (buf : Bytes) (offset : Nat) (s : Bytes) : Bytes × Nat :=
  (buf.take offset ++ s ++ 0 :: buf.drop (offset + s.length + 1), s.length)

def put (s : Bytes) (b : Bytes × Nat) : Bytes × Nat :=
  ((sprintf b.1 b.2 s).1, b.2 + (sprintf b.1 b.2 s).2)

/-- `append_stats` with its offset: the array afterwards, and what is returned. -/
def appendStatsAt (buf : Bytes) (stats : ThreadsStats) (arrival dispatch : Timeval) : Bytes × Nat :=
  let b := (buf, (cstr buf).length)
  let b := put (str "Stat-Req-Arrival:: " ++ signed arrival.sec ++ str "." ++
    padded 6 arrival.usec ++ str "\r\n") b
  let b := put (str "Stat-Req-Dispatch:: " ++ signed dispatch.sec ++ str "." ++
    padded 6 dispatch.usec ++ str "\r\n") b
  let b := put (str "Stat-Thread-Id:: " ++ signed stats.id ++ str "\r\n") b
  let b := put (str "Stat-Thread-Count:: " ++ signed stats.totalReq ++ str "\r\n") b
  let b := put (str "Stat-Thread-Static:: " ++ signed stats.statReq ++ str "\r\n") b
  let b := put (str "Stat-Thread-Dynamic:: " ++ signed stats.dynmReq ++ str "\r\n") b
  put (str "Stat-Thread-Post:: " ++ signed stats.postReq ++ str "\r\n\r\n") b

structure Ends (s : Bytes) (b : Bytes × Nat) : Prop where
  string : cstr b.1 = s
  offset : b.2 = s.length

theorem put_ends {s t : Bytes} {b : Bytes × Nat} (h : Ends s b) (ht : 0 ∉ t) :
    Ends (s ++ t) (put t b) := by
  have hs : b.1.take b.2 = s := by
    have hp : cstr b.1 <+: b.1 := List.takeWhile_prefix _
    rw [h.string] at hp
    rw [h.offset, ← List.prefix_iff_eq_take.1 hp]
  have hnul : 0 ∉ s := by
    rw [← h.string]
    intro h0
    have hne : decide ((0 : UInt8) ≠ 0) = true := List.mem_takeWhile_imp (l := b.1) h0
    exact absurd hne (by decide)
  refine ⟨?_, by rw [put, sprintf, h.offset, List.length_append]⟩
  have hpos : ∀ c ∈ s ++ t, decide (c ≠ 0) = true := by
    intro c hc
    refine decide_eq_true fun h0 => ?_
    subst h0
    exact (List.mem_append.1 hc).elim hnul ht
  rw [put, sprintf, cstr, hs, List.takeWhile_append_of_pos hpos, List.takeWhile_cons_of_neg (by decide),
    List.append_nil]

theorem digit_ne_nul {c : UInt8} (h : isDigit c = true) : c ≠ 0 := by
  rintro rfl
  exact absurd h (by decide)

theorem decimal_nul (n : Nat) : 0 ∉ decimal n := fun h => digit_ne_nul (decimal_digits n 0 h) rfl

theorem signed_nul (n : Int) : 0 ∉ signed n := by
  have h := decimal_nul n.natAbs
  rw [signed]
  split
  · simpa using h
  · exact h

theorem padded_nul (w : Nat) (n : Int) : 0 ∉ padded w n := by
  have h := decimal_nul n.natAbs
  rw [padded]
  split <;> simpa [List.mem_replicate] using h

theorem appendStatsAt_ends (buf : Bytes) (stats : ThreadsStats) (arrival dispatch : Timeval) :
    Ends (appendStats (cstr buf) stats arrival dispatch)
      (appendStatsAt buf stats arrival dispatch) := by
  have htime (name : Bytes) (hn : 0 ∉ name) (t : Timeval) :
      0 ∉ name ++ signed t.sec ++ str "." ++ padded 6 t.usec ++ str "\r\n" := by
    simp only [List.mem_append, not_or]
    exact ⟨⟨⟨⟨hn, signed_nul _⟩, by decide⟩, padded_nul _ _⟩, by decide⟩
  have hnumber (name : Bytes) (hn : 0 ∉ name) (n : Int) (rest : Bytes) (hr : 0 ∉ rest) :
      0 ∉ name ++ signed n ++ rest := by
    simp only [List.mem_append, not_or]
    exact ⟨⟨hn, signed_nul _⟩, hr⟩
  apply put_ends
  · apply put_ends
    · apply put_ends
      · apply put_ends
        · apply put_ends
          · apply put_ends
            · apply put_ends
              · exact ⟨rfl, rfl⟩
              · exact htime _ (by decide) _
            · exact htime _ (by decide) _
          · exact hnumber _ (by decide) _ _ (by decide)
        · exact hnumber _ (by decide) _ _ (by decide)
      · exact hnumber _ (by decide) _ _ (by decide)
    · exact hnumber _ (by decide) _ _ (by decide)
  · exact hnumber _ (by decide) _ _ (by decide)

structure Record where
  stats : ThreadsStats
  arrival : Timeval
  dispatch : Timeval
  deriving DecidableEq

def Record.Proper (r : Record) : Prop := Timevals.Proper r.arrival ∧ Timevals.Proper r.dispatch

def Record.entry (r : Record) : Bytes := appendStats [] r.stats r.arrival r.dispatch

def field (name line : Bytes) : Option Bytes :=
  if name <+: line then some (line.drop name.length) else none

def readLines : List Bytes → Option Record
  | [arrival, dispatch, id, count, static, dynamic, post] => do
      let arrival ← (field (str "Stat-Req-Arrival:: ") arrival).bind readTime
      let dispatch ← (field (str "Stat-Req-Dispatch:: ") dispatch).bind readTime
      let id ← (field (str "Stat-Thread-Id:: ") id).bind readSigned
      let count ← (field (str "Stat-Thread-Count:: ") count).bind readSigned
      let static ← (field (str "Stat-Thread-Static:: ") static).bind readSigned
      let dynamic ← (field (str "Stat-Thread-Dynamic:: ") dynamic).bind readSigned
      let post ← (field (str "Stat-Thread-Post:: ") post).bind readSigned
      return ⟨⟨id, static, dynamic, post, count⟩, arrival, dispatch⟩
  | _ => none

/-- The lines of an entry up to its empty line, each without its name -/
def readEntry (entry : Bytes) : Option Record := (parse entry).bind fun p => readLines p.1

theorem field_append (name value : Bytes) : field name (name ++ value) = some value := by
  rw [field, if_pos (List.prefix_append _ _), List.drop_left]

theorem time_line (name : Bytes) {t : Timeval} (ht : Timevals.Proper t) :
    (field name (name ++ signed t.sec ++ str "." ++ padded 6 t.usec)).bind readTime = some t := by
  have hline : name ++ signed t.sec ++ str "." ++ padded 6 t.usec = name ++ written t := by
    simp only [written, List.append_assoc]
  rw [hline, field_append, Option.bind_some, readTime_written ht.1]

theorem number_line (name : Bytes) (n : Int) :
    (field name (name ++ signed n)).bind readSigned = some n := by
  rw [field_append, Option.bind_some, readSigned_signed]

theorem readLines_statsLines {r : Record} (hr : r.Proper) :
    readLines (statsLines r.stats r.arrival r.dispatch) = some r := by
  simp only [readLines, statsLines, time_line _ hr.1, time_line _ hr.2, number_line]
  rfl

theorem statsLines_line (stats : ThreadsStats) (arrival dispatch : Timeval) :
    ∀ l ∈ statsLines stats arrival dispatch, l ≠ [] ∧ Plain l := by
  intro l hl
  obtain ⟨hname, hplain⟩ := Framing.statsLines_stat stats arrival dispatch l hl
  refine ⟨fun hnil => ?_, hplain⟩
  rw [hnil] at hname
  exact absurd (List.prefix_nil.1 hname) (by decide)

theorem entry_eq (r : Record) :
    r.entry = render (statsLines r.stats r.arrival r.dispatch) ++ crlf ++ [] := by
  rw [Record.entry, statsBlock_eq, statsBlock, List.append_nil]

theorem readEntry_entry {r : Record} (hr : r.Proper) : readEntry r.entry = some r := by
  rw [readEntry, entry_eq, parse_render (by simp [statsLines]) (statsLines_line _ _ _),
    Option.bind_some, readLines_statsLines hr]

/-- Cut behind each CRLF CRLF; `cur` is what has been read since the last one. -/
def cutEntries (cur : Bytes) : Bytes → List Bytes
  | [] => if cur = [] then [] else [cur]
  | b :: s =>
      if crlf ++ crlf <:+ cur ++ [b] then (cur ++ [b]) :: cutEntries [] s else cutEntries (cur ++ [b]) s

def splitEntries (log : Bytes) : List Bytes := cutEntries [] log

def readLog (log : Bytes) : Option (List Record) := (splitEntries log).mapM readEntry

def Delimited (e : Bytes) : Prop :=
  crlf ++ crlf <:+ e ∧ ∀ p, p <+: e → crlf ++ crlf <:+ p → p = e

theorem cutEntries_delimited {cur e : Bytes} (h : Delimited (cur ++ e)) (hne : e ≠ []) (s : Bytes) :
    cutEntries cur (e ++ s) = (cur ++ e) :: cutEntries [] s := by
  induction e generalizing cur with
  | nil => exact absurd rfl hne
  | cons b e ih =>
      have happ : cur ++ b :: e = cur ++ [b] ++ e := by simp
      rw [happ] at h ⊢
      rw [List.cons_append, cutEntries]
      split
      · next hend =>
        have heq := h.2 _ (List.prefix_append _ _) hend
        obtain rfl : e = [] := List.append_right_eq_self.1 heq.symm
        rw [List.append_nil, List.nil_append]
      · next hend =>
        refine ih h fun he => ?_
        subst he
        rw [List.append_nil] at h
        exact hend h.1

theorem splitEntries_flatten {es : List Bytes} (hes : ∀ e ∈ es, Delimited e) :
    splitEntries es.flatten = es := by
  induction es with
  | nil => rfl
  | cons e es ih =>
      have he := hes e (by simp)
      have hne : e ≠ [] := by
        rintro rfl
        exact absurd (List.suffix_nil.1 he.1) (by decide)
      have hcut : cutEntries [] (e ++ es.flatten) = e :: cutEntries [] es.flatten :=
        @cutEntries_delimited [] e he hne es.flatten
      rw [splitEntries, List.flatten_cons, hcut]
      exact congrArg (e :: ·) (ih fun x hx => hes x (by simp [hx]))

theorem entry_delimited (r : Record) : Delimited r.entry := by
  obtain ⟨h, hs, -⟩ := @splitHeader_render (statsLines r.stats r.arrival r.dispatch)
    (by simp [statsLines]) (statsLines_line _ _ _) []
  rw [← entry_eq] at hs
  obtain ⟨hcut, hmin⟩ := splitHeader_eq hs
  rw [List.append_nil] at hcut
  refine ⟨⟨h, by rw [hcut, List.append_assoc]⟩, fun p hp hend => ?_⟩
  obtain ⟨q, rfl⟩ := hend
  obtain ⟨t, ht⟩ := hp
  have hle := hmin q t (by rw [← ht]; simp only [List.append_assoc])
  have hlen := congrArg List.length ht
  rw [hcut] at hlen ht
  simp only [List.length_append] at hlen
  obtain rfl : t = [] := List.length_eq_zero_iff.1 (by omega)
  rw [hcut, ← ht, List.append_nil]

theorem mapM_readEntry {rs : List Record} (hrs : ∀ r ∈ rs, r.Proper) :
    (rs.map Record.entry).mapM readEntry = some rs := by
  induction rs with
  | nil => rfl
  | cons r rs ih =>
      rw [List.map_cons, List.mapM_cons, readEntry_entry (hrs r (by simp)),
        ih fun x hx => hrs x (by simp [hx])]
      rfl

theorem readLog_entries {rs : List Record} (hrs : ∀ r ∈ rs, r.Proper) :
    splitEntries (rs.map Record.entry).flatten = rs.map Record.entry ∧
      readLog (rs.map Record.entry).flatten = some rs := by
  have hsplit : splitEntries (rs.map Record.entry).flatten = rs.map Record.entry := by
    apply splitEntries_flatten
    intro e he
    obtain ⟨r, -, rfl⟩ := List.mem_map.1 he
    exact entry_delimited r
  exact ⟨hsplit, by rw [readLog, hsplit, mapM_readEntry hrs]⟩

variable {Tid : Type} [DecidableEq Tid] {byte : Nat → Byte} {σ : LogState Tid} {rs : List Record}

/-- A log of entries that were added one after the other, by whatever threads, tells
the records in their order. -/
theorem log_reads_back (hrs : ∀ r ∈ rs, r.Proper) (h : Reachable (machine Tid) (start Tid byte) σ)
    (free : σ.owner = none) (hw : (entries σ.data.trace).map Prod.snd = rs.map Record.entry) :
    (∀ (r : Record) (buf : Bytes),
      (appendStatsAt buf r.stats r.arrival r.dispatch).2 =
        (cstr (appendStatsAt buf r.stats r.arrival r.dispatch).1).length ∧
      (cstr buf = [] → cstr (appendStatsAt buf r.stats r.arrival r.dispatch).1 = r.entry)) ∧
    ∃ log, Rep σ.data.mem log ∧ splitEntries log = rs.map Record.entry ∧ readLog log = some rs := by
  refine ⟨fun r buf => ?_, _, ((sized_annotated h).1 free).1, ?_⟩
  · have hends := appendStatsAt_ends buf r.stats r.arrival r.dispatch
    refine ⟨by rw [hends.string, hends.offset], fun hbuf => ?_⟩
    rw [hends.string, hbuf, Record.entry]
  · rw [logged_eq_flatten, hw]
    exact readLog_entries hrs

def twoRecords : List Record :=
  [⟨⟨1, 1, 0, 0, 1⟩, ⟨10, 999999⟩, ⟨0, 7⟩⟩, ⟨⟨1, 1, 1, 0, 2⟩, ⟨11, 5⟩, ⟨0, 0⟩⟩]

theorem log_reads_back_two : ∃ σ : LogState Unit, Reachable (machine Unit) (start Unit fun _ => 0) σ ∧
    ∃ log, Rep σ.data.mem log ∧ readLog log = some twoRecords := by
  have hlen : ∀ bs ∈ twoRecords.map Record.entry, 0 < bs.length ∧ bs.length < 2 ^ 31 := by
    decide +kernel
  obtain ⟨d, hpath, -, hlog⟩ := @path_adds Unit _ (fun _ => 0) () _ hlen (by decide +kernel)
  have hreach := path_reachable hpath
  have hproper : ∀ r ∈ twoRecords, r.Proper := by
    simp only [twoRecords, List.forall_mem_cons, List.not_mem_nil, false_imp_iff, implies_true,
      and_true, Record.Proper]
    decide
  obtain ⟨log, hrep, -, hread⟩ := (log_reads_back hproper hreach rfl hlog).2
  exact ⟨_, hreach, log, hrep, hread⟩

end WebServer.StatsText
