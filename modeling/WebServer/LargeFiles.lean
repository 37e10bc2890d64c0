import WebServer.Framing
import WebServer.RequestCalls

namespace WebServer.LargeFiles

open Message Process Segel RequestHandle Answers HeaderReading Framing
open RequestQueue (Timeval ThreadsStats)
open ServerLog (int32)

variable {filename content : Bytes} {s : Int} {w w' : World} {arrival dispatch : Timeval}
  {stats : ThreadsStats}

/-- A regular file that its owner may read. All calls on it and on the connection
succeed, and it holds as many bytes as `stat` says. -/
structure Readable (filename content : Bytes) (s : Int) (w : World) : Prop where
  stat : ∃ ixusr, w.os.stat filename = some ⟨true, true, ixusr, s⟩
  openFd : ∃ fd, w.os.openFd filename = some fd ∧ w.os.content fd = content
  length : content.length = s
  mmap : w.os.mmapOk = true
  close : w.os.closeOk = true
  munmap : w.os.munmapOk = true
  writes : .failed ∉ w.writes

/-- A file of `s` bytes is mapped and sent with its announced length, and is not taken
for an empty one. -/
structure ServedWhole (s : Int) : Prop where
  maps : ∀ filename arrival dispatch stats, ∃ k : Int → RequestCalls.Calls ThreadsStats,
    RequestCalls.requestServeStatic filename (int32 s) arrival dispatch stats =
      .call (.openFile filename) k ∧ ∀ fd, 0 ≤ fd → ∃ k', k fd = .call (.mmap s fd) k'
  sends : ∀ filename content cgiargs w, Readable filename content s w →
    ∀ arrival dispatch (stats : ThreadsStats), ∃ stats' w', requestGet ⟨true, filename, cgiargs⟩ arrival dispatch
        { stats with totalReq := stats.totalReq + 1 } w = .returned stats' w' ∧
      w'.sent = w.sent ++ response (contentLines s (requestGetFiletype filename)) stats' arrival
        dispatch content
  empty : ∀ filename content cgiargs w, Readable filename content s w →
    answerGet w.os ⟨true, filename, cgiargs⟩ ≠ .emptyFile filename

theorem int32_eq (h0 : 0 ≤ s) (h : s < 2 ^ 31) : int32 s = s := by
  rw [int32, Int.bmod_def]
  omega

theorem answerGet_readable (h : Readable filename content s w) (cgiargs : Bytes) :
    answerGet w.os ⟨true, filename, cgiargs⟩ =
      if int32 s = 0 then .emptyFile filename else .file filename (int32 s) := by
  obtain ⟨ixusr, hstat⟩ := h.stat
  simp [answerGet, hstat]

theorem file_works (h : Readable filename content s w) (h0 : 0 ≤ s) :
    Reply.Works w.os (.file filename s) := by
  obtain ⟨fd, hfd, hcontent⟩ := h.openFd
  have hlen := h.length
  refine ⟨fd, hfd, h.mmap, h.close, h.munmap, h0, ?_⟩
  rw [Os.mapped, hcontent, List.length_append]
  omega

theorem served_of_small (h1 : 1 ≤ s) (h : s < 2 ^ 31) : ServedWhole s where
  maps filename arrival dispatch stats := by
    rw [int32_eq (by omega) h]
    refine ⟨_, rfl, fun fd hfd => ?_⟩
    have hneg : ¬ fd < 0 := not_lt.2 hfd
    have hzero : s ≠ 0 := by omega
    simp only [Prog.bind, if_neg hneg, if_neg hzero]
    exact ⟨_, rfl⟩
  sends filename content cgiargs w hr arrival dispatch stats := by
    have hanswer := answerGet_readable hr cgiargs
    rw [int32_eq (by omega) h, if_neg (by omega)] at hanswer
    have hget := @requestGet_answered w arrival dispatch ⟨true, filename, cgiargs⟩ stats
    rw [hanswer] at hget
    obtain ⟨stats', w', hret, rfl, ha⟩ := hget.returns
      fun _ hd => hr.writes (hd.2 (file_works hr (by omega)))
    obtain ⟨fd, hfd, hcontent⟩ := hr.openFd
    have hlen := hr.length
    have hbody : Reply.body w.os w.stdout (.file filename s) = content := by
      rw [Reply.body, hfd, Option.getD_some, Os.mapped, hcontent]
      exact List.take_left' (by omega)
    exact ⟨_, w', hret, by rw [ha.sent, hbody]; rfl⟩
  empty filename content cgiargs w hr := by
    rw [answerGet_readable hr, int32_eq (by omega) h, if_neg (by omega)]
    intro hempty
    cases hempty

theorem size_of_whole (hs : s = (content.length : Nat)) (hr : Readable filename content s w)
    {cgiargs : Bytes} {stats' : ThreadsStats}
    (hret : requestGet ⟨true, filename, cgiargs⟩ arrival dispatch
      { stats with totalReq := stats.totalReq + 1 } w = .returned stats' w')
    (hsent : w'.sent = w.sent ++ response (contentLines s (requestGetFiletype filename)) stats'
      arrival dispatch content) : int32 s = s := by
  have hget := @requestGet_answered w arrival dispatch ⟨true, filename, cgiargs⟩ stats
  obtain ⟨rfl, ha⟩ := hget.returned hret
  have hwhole := (contentLines_front s (requestGetFiletype_plain filename)).parse
    ((answerGet w.os ⟨true, filename, cgiargs⟩).count stats) arrival dispatch content
  rw [← List.append_cancel_left (ha.sent.symm.trans hsent)] at hwhole
  rw [answerGet_readable hr] at hwhole ha
  by_cases hzero : int32 s = 0
  · rw [if_pos hzero, Reply.lines, (errorLines_front (by decide) (by decide) _).parse] at hwhole
    have hstatus := congrArg (fun r => r.map fun p => p.1.head?) hwhole
    exact absurd (Option.some.inj (Option.some.inj hstatus)) (by decide)
  · rw [if_neg hzero] at hwhole ha
    rw [Reply.lines, (contentLines_front _ (requestGetFiletype_plain filename)).parse] at hwhole
    have hbody := congrArg (fun r => r.map fun p => p.2.length) hwhole
    have hlen := (ha.whole rfl).2
    have hcontent := Option.some.inj hbody
    dsimp only at hcontent
    rw [hcontent] at hlen
    rw [← hlen, hs]

def sized (s : Nat) : World :=
  connection { Os.bare with
    stat := fun _ => some ⟨true, true, true, s⟩
    openFd := fun _ => some 4
    content := fun _ => List.replicate s 97 } [] []

theorem sized_readable (s : Nat) (filename : Bytes) :
    Readable filename (List.replicate s 97) s (sized s) where
  stat := ⟨true, rfl⟩
  openFd := ⟨4, rfl, rfl⟩
  length := by rw [List.length_replicate]
  mmap := rfl
  close := rfl
  munmap := rfl
  writes := List.not_mem_nil

theorem small_of_served (h1 : 1 ≤ s) (h : ServedWhole s) : s < 2 ^ 31 := by
  obtain ⟨n, rfl⟩ := Int.eq_ofNat_of_zero_le (Int.le_trans Int.one_nonneg h1)
  have hr := sized_readable n (str "a")
  obtain ⟨stats', w', hret, hsent⟩ := h.sends _ _ [] _ hr ⟨0, 0⟩ ⟨0, 0⟩ ⟨1, 0, 0, 0, 0⟩
  have hsame := size_of_whole (by rw [List.length_replicate]) hr hret hsent
  have hlt := int32_lt n
  omega

/-- The size is cut to an `int`: a file is served whole if and only if its size is one. -/
theorem served_whole_iff (h1 : 1 ≤ s) : ServedWhole s ↔ s < 2 ^ 31 :=
  ⟨small_of_served h1, served_of_small h1⟩

theorem served_whole_iff_five : ServedWhole 5 := (served_whole_iff (by decide)).2 (by decide)

theorem large_file : ¬ ServedWhole (2 ^ 32) ∧
    answerGet (sized (2 ^ 32)).os ⟨true, str "./public/a", []⟩ = .emptyFile (str "./public/a") ∧
    answerGet (sized (2 ^ 32 + 5)).os ⟨true, str "./public/a", []⟩ = .file (str "./public/a") 5 := by
  refine ⟨fun h => absurd (small_of_served (by decide) h) (by decide), ?_, ?_⟩
  · rw [answerGet_readable (sized_readable _ _)]
    exact if_pos (by decide)
  · rw [answerGet_readable (sized_readable _ _)]
    exact if_neg (by decide)

end WebServer.LargeFiles
