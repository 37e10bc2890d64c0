import WebServer.LogBuffer

namespace WebServer.LogContent

open Monitor ServerLog LogLock LogBuffer

theorem sizeT_small {n : Nat} (h : n < 2 ^ 64) : sizeT n = n := Nat.mod_eq_of_lt h

/-- A capacity that `Malloc` gives: 4096, doubled at most 50 times. -/
def Doubled (cap : Nat) : Prop := ∃ k, 12 ≤ k ∧ k ≤ 62 ∧ cap = 2 ^ k

def Wanted (m : Nat) : Prop := ∃ cap, Doubled cap ∧ m = cap * 2

theorem Doubled.le {cap : Nat} (h : Doubled cap) : cap ≤ 2 ^ 62 := by
  obtain ⟨k, -, hk, rfl⟩ := h
  exact Nat.pow_le_pow_right Nat.two_pos hk

theorem Doubled.low {cap : Nat} (h : Doubled cap) : 4096 ≤ cap := by
  obtain ⟨k, hk, -, rfl⟩ := h
  exact Nat.pow_le_pow_right Nat.two_pos hk

theorem Doubled.double {cap : Nat} (h : Doubled cap) :
    Wanted (sizeT (cap * 2)) ∧ sizeT (cap * 2) = cap * 2 := by
  have hsmall : sizeT (cap * 2) = cap * 2 := sizeT_small (by have := h.le; omega)
  exact ⟨⟨cap, h, hsmall⟩, hsmall⟩

theorem Wanted.low {m : Nat} (h : Wanted m) : 4096 ≤ m := by
  obtain ⟨cap, hcap, rfl⟩ := h
  have hlow := hcap.low
  omega

theorem Wanted.doubled {m : Nat} (h : Wanted m) (hm : m < 2 ^ 63) : Doubled m := by
  obtain ⟨cap, ⟨k, hlow, -, rfl⟩, rfl⟩ := h
  have hpow : 2 ^ k * 2 = 2 ^ (k + 1) := (Nat.pow_succ 2 k).symm
  rw [hpow] at hm ⊢
  have hk : k + 1 < 63 := (Nat.pow_lt_pow_iff_right Nat.one_lt_two).1 hm
  exact ⟨k + 1, by omega, by omega, rfl⟩

def newCapacity : AddPc → Option Nat
  | .growLoop m | .malloc m | .copyOld m _ _ _ _ | .free m _ | .setBuffer m _ | .setCapacity m => some m
  | _ => none

def obtained : AddPc → Bool
  | .copyOld .. | .free .. | .setBuffer .. | .setCapacity _ => true
  | _ => false

/-- The memory is what the outline says of it, however long the log is. -/
structure Sized (d : Mem) (before entry : List Byte) (s : AddPc) : Prop where
  content : AddPc.content d before entry s
  capacity : Doubled d.log.capacity
  next : ∀ m ∈ newCapacity s, Wanted m ∧ (obtained s = true → m < 2 ^ 63)

variable {d : Mem} {before entry : List Byte} {m : Nat}

theorem Rep.length_lt (hd : Rep d before) (hc : Doubled d.log.capacity) : before.length < 2 ^ 62 := by
  have hl := hd.block.length_le
  rw [List.length_append, List.length_singleton] at hl
  exact Nat.lt_of_lt_of_le hl hc.le

theorem Rep.need (hd : Rep d before) (hc : Doubled d.log.capacity) (he : entry.length < 2 ^ 31) :
    sizeT (d.log.size + entry.length + 1) = before.length + entry.length + 1 := by
  have hsize := hd.size
  have hlt := Rep.length_lt hd hc
  rw [sizeT_small (by omega)]
  omega

theorem grow_content (hd : Rep d before) (hc : Doubled d.log.capacity)
    (he : entry.length < 2 ^ 31) : Sized d before entry
      (if sizeT (d.log.size + entry.length + 1) ≥ d.log.capacity
        then .growLoop (sizeT (d.log.capacity * 2)) else .memcpy) := by
  have hsize := hd.size
  obtain ⟨hlow, hhigh⟩ := hd.roomy
  rw [Rep.need hd hc he]
  split
  · obtain ⟨hwanted, hcap⟩ := hc.double
    rw [hcap] at hwanted ⊢
    refine ⟨⟨hd, by omega, by omega⟩, hc, fun m hm => ?_⟩
    obtain rfl := Option.some.inj hm
    exact ⟨hwanted, nofun⟩
  · refine ⟨⟨⟨hd.block.mono (List.prefix_append _ _), hd.fresh, by omega, hlow, ?_⟩, hsize⟩, hc,
      nofun⟩
    omega

theorem Sized.double (h : Sized d before entry (.growLoop m)) (he : entry.length < 2 ^ 31)
    (hlt : m < sizeT (d.log.size + entry.length + 1)) :
    Wanted (sizeT (m * 2)) ∧ sizeT (m * 2) = m * 2 := by
  have hg : Growing d before entry m := h.content
  have hlen := Rep.length_lt hg.rep h.capacity
  rw [Rep.need hg.rep h.capacity he] at hlt
  exact ((h.next m rfl).1.doubled (by omega)).double

theorem growLoop_content (h : Sized d before entry (.growLoop m)) (he : entry.length < 2 ^ 31) :
    Sized d before entry (if m < sizeT (d.log.size + entry.length + 1) then .growLoop (sizeT (m * 2))
        else .malloc m) := by
  have hg : Growing d before entry m := h.content
  have hlow := hg.low
  have hneed := Rep.need hg.rep h.capacity he
  split
  · next hlt =>
    obtain ⟨hwanted, hm⟩ := h.double he hlt
    rw [hneed] at hlt
    rw [hm] at hwanted ⊢
    refine ⟨⟨hg.rep, by omega, by omega⟩, h.capacity, fun m' hm' => ?_⟩
    obtain rfl := Option.some.inj hm'
    exact ⟨hwanted, nofun⟩
  · next hlt =>
    rw [hneed] at hlt
    refine ⟨⟨hg, by omega⟩, h.capacity, fun m' hm' => ?_⟩
    obtain rfl := Option.some.inj hm'
    exact ⟨(h.next m rfl).1, nofun⟩

theorem malloc_content (hd : Growing d before entry m) (hm : before.length + entry.length + 1 ≤ m)
    (byte : Nat → Byte) : AddPc.content (d.alloc m byte) before entry
      (.copyOld m d.brk d.log.buffer d.log.size 0) := by
  have hb := hd.rep.fresh.1
  refine ⟨⟨⟨hd.rep.block.alloc hb m byte, hd.rep.size, hd.rep.fresh.alloc m byte, hd.rep.roomy⟩,
    hd.low, hd.high⟩, hm, rfl, hd.rep.size, Nat.zero_le _, by omega, ?_, ?_⟩
  · simp [Mem.alloc]
  · simpa using block_alloc d m byte

theorem Growing.store (hd : Growing d before entry m) {new : Nat} (hne : new ≠ d.log.buffer)
    (hlt : new < d.brk) (i : Nat) (b : Byte) : Growing (d.store new i b) before entry m :=
  ⟨⟨hd.rep.block.store_other hne i b, hd.rep.size, hd.rep.fresh.store hlt i b, hd.rep.roomy⟩,
    hd.low, hd.high⟩

theorem copyOld_content {new src n i : Nat} (h : AddPc.content d before entry (.copyOld m new src n i))
    (hi : i < n) (other : Byte) : AddPc.content (d.store new i (d.load src i other)) before entry
      (.copyOld m new src n (i + 1)) := by
  obtain ⟨hd, hm, rfl, rfl, -, hne, hlt, hblk⟩ := h
  have hload : d.load d.log.buffer i other = before[i] := by
    rw [hd.rep.block.load (by simp; omega)]
    simp [List.getElem_append_left hi]
  have hlen : (before.take i).length = i := by simp; omega
  refine ⟨Growing.store hd hne hlt i _, hm, rfl, rfl, by omega, hne, hlt, ?_⟩
  have h := hblk.store before[i] (by omega)
  rw [hlen] at h
  rw [hload, List.take_succ_eq_append_getElem hi]
  exact h

theorem free_content {new : Nat} (h : AddPc.content d before entry (.free m new)) :
    AddPc.content (d.free d.log.buffer) before entry (.setBuffer m new) := by
  obtain ⟨hd, hm, hne, hlt, hblk⟩ := h
  have hlow := hd.low
  have hhigh := hd.high
  exact ⟨hm, ⟨hlow, by omega⟩, hd.rep.fresh.free _, hlt, hblk.free_other (Ne.symm hne), hd.rep.size⟩

theorem setBuffer_content {new : Nat} (h : AddPc.content d before entry (.setBuffer m new)) :
    AddPc.content { d with log.buffer := new } before entry (.setCapacity m) := by
  obtain ⟨hm, hr, hf, hlt, hblk, hs⟩ := h
  exact ⟨hm, hr, ⟨hlt, hf.2⟩, hblk, hs⟩

theorem setCapacity_content (h : AddPc.content d before entry (.setCapacity m)) :
    AddPc.content { d with log.capacity := m } before entry .memcpy := by
  obtain ⟨hm, hr, hf, hblk, hs⟩ := h
  exact ⟨⟨hblk, hf, hm, hr⟩, hs⟩

theorem copying_content {dst off i : Nat} (h : AddPc.content d before entry (.copying dst off i))
    (hi : i < entry.length) : AddPc.content (d.store dst (off + i) entry[i]) before entry
      (.copying dst off (i + 1)) := by
  obtain ⟨hw, hs, rfl, rfl, -⟩ := h
  have hroom := hw.room
  have hlen : (before ++ entry.take i).length = before.length + i := by
    rw [List.length_append, List.length_take_of_le (by omega)]
  have h := hw.block.store entry[i] (by omega)
  rw [hlen, List.append_assoc, ← List.take_succ_eq_append_getElem hi] at h
  exact ⟨⟨h, hw.fresh.store hw.fresh.1 _ _, hw.room, hw.roomy⟩, hs, rfl, rfl, by omega⟩

theorem terminate_content (h : AddPc.content d before entry .terminate) :
    AddPc.content (d.store d.log.buffer d.log.size 0) before entry .clear := by
  obtain ⟨hw, hs⟩ := h
  have hroom := hw.room
  have hlen : (before ++ entry).length = before.length + entry.length := List.length_append
  have h := hw.block.store 0 (by omega)
  rw [hlen, ← hs] at h
  exact ⟨h, by rw [hlen]; exact hs, hw.fresh.store hw.fresh.1 _ _, by rw [hlen]; exact hw.roomy⟩

def sizedOutline (p : Pc) (d : Shared) : Prop :=
  match p with
  | .get _ _ => Rep d.mem (logged d.trace) ∧ Doubled d.log.capacity
  | .add _ entry s => Sized d.mem (logged d.trace) entry.bytes s
  | _ => True

def sizedFree (d : Shared) : Prop := Rep d.mem (logged d.trace) ∧ Doubled d.log.capacity

theorem addToLog_content (c : Nat) (entry : Entry) (s : AddPc) :
    (addToLog c entry s).Verified LogLock.holds known sizedFree sizedOutline (.add c entry s) := by
  have he := entry.fits
  cases s with
  | lock => exact fun d _ hd => ⟨hd.1, hd.2, nofun⟩
  | unlock => exact fun d _ hd => ⟨hd.content, hd.capacity⟩
  | wait => exact fun d => ⟨fun _ hd => ⟨hd.content, hd.capacity⟩, fun _ hd => ⟨hd.1, hd.2, nofun⟩⟩
  | signal | broadcast =>
      intro _ d _ h
      exact ⟨h.content, h.capacity, nofun⟩
  | incWaiting | decWaiting | setWriter =>
      apply verified_held rfl
      intro _ d h
      exact ⟨h.content.congr _ _ _, h.capacity, nofun⟩
  | check | testWaiting =>
      apply verified_held rfl
      intro _ d h
      split <;> exact ⟨h.content, h.capacity, nofun⟩
  | grow =>
      apply verified_held rfl
      intro _ d h
      exact grow_content h.content h.capacity he
  | growLoop m => exact verified_held rfl fun _ d hd => growLoop_content hd he
  | malloc m =>
      refine malloc_held rfl (fun byte d hm _ h => ?_) fun d h => ⟨h.content, h.capacity, h.next⟩
      refine ⟨malloc_content h.content.1 h.content.2 byte, h.capacity, fun m' hm' => ?_⟩
      obtain rfl := Option.some.inj hm'
      exact ⟨(h.next m rfl).1, fun _ => hm⟩
  | copyOld m new src n i =>
      apply verified_held rfl
      intro byte d h
      by_cases hi : i < n
      · simp only [hi, if_true]
        exact ⟨copyOld_content h.content hi _, h.capacity, h.next⟩
      · simp only [hi, if_false]
        obtain ⟨hg, hm, rfl, rfl, -, hne, hlt, hblk⟩ := h.content
        refine ⟨⟨hg, hm, hne, hlt, ?_⟩, h.capacity, h.next⟩
        simpa [List.take_of_length_le (not_lt.1 hi)] using hblk
  | free m new =>
      apply verified_held rfl
      intro _ d h
      exact ⟨free_content h.content, h.capacity, h.next⟩
  | setBuffer m new =>
      apply verified_held rfl
      intro _ d h
      exact ⟨setBuffer_content h.content, h.capacity, h.next⟩
  | setCapacity m =>
      apply verified_held rfl
      intro _ d h
      obtain ⟨hwanted, hm⟩ := h.next m rfl
      exact ⟨setCapacity_content h.content, hwanted.doubled (hm rfl), nofun⟩
  | memcpy =>
      apply verified_held rfl
      intro _ d h
      obtain ⟨hw, hs⟩ := h.content
      exact ⟨⟨by simpa using hw, hs, rfl, hs, Nat.zero_le _⟩, h.capacity, nofun⟩
  | copying dst off i =>
      apply verified_held rfl
      intro _ d h
      cases hi : entry.bytes[i]? with
      | some b =>
          obtain ⟨hlt, rfl⟩ := List.getElem?_eq_some_iff.1 hi
          exact ⟨copying_content h.content hlt, h.capacity, nofun⟩
      | none =>
          obtain ⟨hw, hs, -⟩ := h.content
          refine ⟨⟨?_, hs⟩, h.capacity, nofun⟩
          simpa [List.take_of_length_le (List.getElem?_eq_none_iff.1 hi)] using hw
  | addSize =>
      apply verified_held rfl
      intro _ d h
      obtain ⟨hw, hs⟩ := h.content
      have hs : d.log.size = (logged d.trace).length := hs
      have hroom := hw.room
      have hle := h.capacity.le
      have hsum : sizeT (d.log.size + entry.bytes.length) =
          (logged d.trace).length + entry.bytes.length := by
        rw [sizeT_small (by omega), hs]
      exact ⟨⟨⟨hw.block, hw.fresh, hw.room, hw.roomy⟩, hsum⟩, h.capacity, nofun⟩
  | terminate =>
      apply verified_held rfl
      intro _ d h
      exact ⟨terminate_content h.content, h.capacity, nofun⟩
  | clear =>
      apply verified_held rfl
      intro _ d h
      have hrep := Rep.congr h.content d.log.readers 0 d.log.waitingWriters
      rw [← logged_wrote] at hrep
      exact ⟨hrep, h.capacity, nofun⟩

theorem outside_content {d d' : Shared} (hm : d'.mem = d.mem)
    (ht : logged d'.trace = logged d.trace) :
    (sizedFree d → sizedFree d') ∧ ∀ r, sizedOutline r d → sizedOutline r d' := by
  refine ⟨fun h => by simpa only [sizedFree, Shared.log, hm, ht] using h, fun r h => ?_⟩
  cases r with
  | get c s => simpa only [sizedOutline, Shared.log, hm, ht] using h
  | add c entry s => simpa only [sizedOutline, hm, ht] using h
  | idle | addTest | addRet => trivial

theorem getLog_content (c : Nat) (s : GetPc) :
    (getLog c s).Verified LogLock.holds known sizedFree sizedOutline (.get c s) := by
  cases s with
  | lock | unlock | endLock | endUnlock => exact fun d _ hd => hd
  | wait => exact fun d => ⟨fun _ hd => hd, fun _ hd => hd⟩
  | signal => exact fun _ d _ hd => hd
  | check | testReaders => exact verified_held rfl fun _ d hd => hd
  | incReaders | decReaders => exact verified_held rfl fun _ d hd => ⟨hd.1.congr _ _ _, hd.2⟩
  | ret => exact verified_free rfl fun _ d => outside_content rfl (logged_other _ rfl)
  | malloc =>
      exact malloc_free rfl (fun _ d => outside_content rfl rfl) fun d => outside_content rfl rfl
  | _ => exact verified_free rfl fun _ d => outside_content rfl rfl

theorem code_content (p : Pc) :
    (code p).Verified LogLock.holds known sizedFree sizedOutline p := by
  cases p with
  | idle =>
      intro d e d' q h _
      have hedge : Edge d .idle q d' := goes_edge ⟨e, h⟩
      cases hedge <;> exact outside_content rfl (logged_other _ rfl)
  | addTest c data n =>
      intro d e d' q h _
      have hedge : Edge d (.addTest c data n) q d' := goes_edge ⟨e, h⟩
      cases hedge <;> exact outside_content rfl rfl
  | addRet c => exact verified_free rfl fun _ d => outside_content rfl (logged_other _ rfl)
  | get c s => exact getLog_content c s
  | add c entry s => exact addToLog_content c entry s

variable {Tid : Type} [DecidableEq Tid] {byte : Nat → Byte} {σ : LogState Tid}

theorem sized_annotated (h : Reachable (machine Tid) (start Tid byte) σ) :
    Annotated LogLock.holds sizedFree sizedOutline σ :=
  Outline.reachable ⟨fun _ => code_bracketed, fun _ => code_content⟩ h (start_guarded byte)
    (fun _ _ _ => trivial) ⟨fun _ => ⟨start_rep byte, 12, by decide, by decide, rfl⟩, fun t p hp hh => by
      obtain rfl : Pc.idle = p := by simpa [start] using hp
      simp [LogLock.holds] at hh⟩

end WebServer.LogContent
