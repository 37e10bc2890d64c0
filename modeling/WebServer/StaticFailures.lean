import WebServer.Framing

namespace WebServer.StaticFailures

open Message Process Segel RequestHandle Sending Answers HeaderReading Framing
open RequestQueue (Timeval ThreadsStats)

variable {filename : Bytes} {size : Int} {arrival dispatch : Timeval} {stats : ThreadsStats}
  {w w' : World}

def counted (stats : ThreadsStats) : ThreadsStats := { stats with statReq := stats.statReq + 1 }

def Opened (os : Os) (filename : Bytes) : Prop := os.openFd filename ≠ none

/-- A mapping of a negative number of bytes is one of more than 2^63. -/
def Mapped (os : Os) (size : Int) : Prop := os.mmapOk = true ∧ 0 ≤ size

/-- The calls other than `open` and `mmap` succeed. A `write` from a mapping fails where
the file no longer has the pages of the size that `stat` has announced. -/
structure Otherwise (filename : Bytes) (size : Int) (w : World) : Prop where
  close : w.os.closeOk = true
  munmap : w.os.munmapOk = true
  writes : .failed ∉ w.writes
  pages : ∀ fd, w.os.openFd filename = some fd → size.toNat ≤ (w.os.mapped fd).length

def forbidden (filename longmsg : Bytes) : Reply :=
  .error filename (str "403") (str "Forbidden") longmsg

/-- The reply that the source has for each outcome of `open` and `mmap`. -/
inductive Intended (os : Os) (filename : Bytes) (size : Int) : Reply → Prop
  | open_failed (h : ¬ Opened os filename) :
      Intended os filename size (forbidden filename (str "OS-HW3 Server could not read this file"))
  | empty (ho : Opened os filename) (hs : size = 0) : Intended os filename size (.emptyFile filename)
  | mmap_failed (ho : Opened os filename) (hs : size ≠ 0) (hm : ¬ Mapped os size) :
      Intended os filename size (forbidden filename (str "OS-HW3 Server could not read this file"))
  | file (ho : Opened os filename) (hs : size ≠ 0) (hm : Mapped os size) :
      Intended os filename size (.file filename size)

def kept (stats : ThreadsStats) : Reply → ThreadsStats
  | .file _ _ => counted stats
  | _ => stats

def Handled (filename : Bytes) (size : Int) (arrival dispatch : Timeval) (stats : ThreadsStats)
    (w : World) : Prop :=
  ∃ reply w', Intended w.os filename size reply ∧
    requestServeStatic filename size arrival dispatch (counted stats) w =
      .returned (kept stats reply) w' ∧
    w'.sent = w.sent ++ response (reply.lines w.os) (kept stats reply) arrival dispatch
      (reply.body w.os w.stdout)

theorem counted_back (stats : ThreadsStats) :
    { counted stats with statReq := (counted stats).statReq - 1 } = stats := by
  simp [counted]

theorem open_exits (h : ¬ Opened w.os filename) :
    requestServeStatic filename size arrival dispatch (counted stats) w = .exited w := by
  have hnone : w.os.openFd filename = none := not_not.1 h
  rw [requestServeStatic, bind_apply, Open, hnone]
  rfl

theorem mmap_exits (ho : Opened w.os filename) (hs : size ≠ 0) (hm : ¬ Mapped w.os size) :
    requestServeStatic filename size arrival dispatch (counted stats) w = .exited w := by
  obtain ⟨fd, hfd⟩ := Option.ne_none_iff_exists'.1 ho
  have hopen : Open filename w = .returned fd w := by simp only [Open, hfd]
  have hmmap : Mmap size fd w = .exited w := if_neg hm
  rw [requestServeStatic, bind_apply, hopen]
  dsimp only
  rw [if_neg (by omega), if_neg hs, bind_apply, hmmap]

theorem handled_of_success (h : Otherwise filename size w) (ho : Opened w.os filename)
    (hm : size = 0 ∨ Mapped w.os size) : Handled filename size arrival dispatch stats w := by
  by_cases hs : size = 0
  · subst hs
    have hempty := @requestServeStatic_empty w True arrival dispatch (counted stats) filename
      fun _ => ⟨ho, h.close⟩
    obtain ⟨stats', w', hr, hstats, hsends⟩ := hempty.returns fun _ hd => h.writes (hd.2 trivial)
    obtain rfl : stats' = stats := hstats.trans (counted_back stats)
    exact ⟨.emptyFile filename, w', .empty ho rfl, hr, hsends.sent⟩
  · have hmap := hm.resolve_left hs
    obtain ⟨fd, hfd⟩ := Option.ne_none_iff_exists'.1 ho
    have hfile := @requestServeStatic_file w True arrival dispatch (counted stats) filename size hs
      fun _ => ⟨fd, hfd, hmap.1, h.close, h.munmap, hmap.2, h.pages fd hfd⟩
    obtain ⟨stats', w', hr, rfl, -, -, hsends⟩ := hfile.returns fun _ hd => h.writes (hd.2 trivial)
    exact ⟨.file filename size, w', .file ho hs hmap, hr, hsends.sent⟩

/-- The failures of `open` and `mmap` are not answered: the 403 branches behind them
are never taken. -/
theorem static_handled_iff (h : Otherwise filename size w) :
    Handled filename size arrival dispatch stats w ↔
      Opened w.os filename ∧ (size = 0 ∨ Mapped w.os size) := by
  refine ⟨?_, fun ⟨ho, hm⟩ => handled_of_success h ho hm⟩
  rintro ⟨reply, w', -, hr, -⟩
  by_cases ho : Opened w.os filename
  · refine ⟨ho, ?_⟩
    by_contra hm
    rw [not_or] at hm
    rw [mmap_exits ho hm.1 hm.2] at hr
    cases hr
  · rw [open_exits ho] at hr
    cases hr

theorem static_handled_iff_fetching :
    Handled (str "./public/a") 5 ⟨1, 5⟩ ⟨0, 7⟩ ⟨3, 0, 0, 0, 0⟩ fetching := by
  have hcontent : (5 : Int).toNat ≤ (str "hello").length := by decide
  have hopen : fetching.os.openFd (str "./public/a") ≠ none := by decide +kernel
  exact (static_handled_iff ⟨rfl, rfl, by simp [fetching], fun _ _ => hcontent⟩).2
    ⟨hopen, .inr ⟨rfl, by decide⟩⟩

def unreadable : Os :=
  { oneFile (str "./public/a") (str "hello") with openFd := fun _ => none }

theorem unreadable_exits :
    let w := client unreadable (str "GET a HTTP/1.0\r\n\r\n") (by decide) (by decide)
    ¬ Handled (str "./public/a") 5 ⟨1, 5⟩ ⟨0, 7⟩ ⟨3, 0, 0, 0, 0⟩ w ∧
      ∃ w', requestServeStatic (str "./public/a") 5 ⟨1, 5⟩ ⟨0, 7⟩ (counted ⟨3, 0, 0, 0, 0⟩) w =
        .exited w' ∧ w'.sent = [] := by
  have hclosed : ¬ Opened unreadable (str "./public/a") := by simp [Opened, unreadable]
  refine ⟨?_, _, open_exits hclosed, rfl⟩
  rintro ⟨reply, w', -, hr, -⟩
  rw [open_exits hclosed] at hr
  cases hr

end WebServer.StaticFailures
