import WebServer.LogAtomic

namespace WebServer.LogSafety

open Monitor ServerLog LogLock LogBuffer LogContent LogAtomic

/-- What a statement does with a block on the heap. -/
inductive Access
  | load (a i : Nat)
  | store (a i : Nat)
  | free (a : Nat)

def Access.Valid (m : Mem) : Access → Prop
  | .load a i | .store a i => ∃ blk, m.heap a = some blk ∧ i < blk.length
  | .free a => m.heap a ≠ none

def accesses (d : Shared) : Pc → List Access
  | .get _ s => match s with
    | .copying _ src n i _ => if i < n then [.load src i] else []
    | _ => []
  | .add _ e s => match s with
    | .copyOld _ new src n i => if i < n then [.load src i, .store new i] else []
    | .free _ _ => [.free d.log.buffer]
    | .copying dst off i => if i < e.bytes.length then [.store dst (off + i)] else []
    | .terminate => [.store d.log.buffer d.log.size]
    | _ => []
  | _ => []

/-- The blocks that `add_to_log` has at a place: the buffer, and while it grows the new
one. -/
def AddPc.owns (d : Mem) (a : Nat) : AddPc → Prop
  | .copyOld _ new _ _ _ | .free _ new => a = d.log.buffer ∨ a = new
  | .setBuffer _ new => a = new
  | _ => a = d.log.buffer

def Live (d : Mem) (a : Nat) : Prop := d.heap a ≠ none

/-- `destroy_log` -/
def destroyLog (d : Mem) : Mem := d.free d.log.buffer

def ownedFree (d : Shared) : Prop := ∀ a, Live d.mem a ↔ a = d.log.buffer

def owned (p : Pc) (d : Shared) : Prop :=
  match p with
  | .get _ _ => ownedFree d
  | .add _ _ s => ∀ a, Live d.mem a ↔ AddPc.owns d.mem a s
  | _ => True

def relied (p : Pc) (d : Shared) : Prop := inWrite p = true → sizedOutline p d

variable {d d' : Shared} {c : Nat} {e : Entry}

theorem live_store (m : Mem) (a i : Nat) (b : Byte) (a' : Nat) :
    Live (m.store a i b) a' ↔ Live m a' := by
  by_cases ha : a' = a
  · subst a'
    simp [Live, Mem.store]
  · simp [Live, Mem.store, ha]

theorem live_free (m : Mem) (a a' : Nat) : Live (m.free a) a' ↔ a' ≠ a ∧ Live m a' := by
  by_cases ha : a' = a
  · subst a'
    simp [Live, Mem.free]
  · simp [Live, Mem.free, ha]

theorem live_alloc (m : Mem) (n : Nat) (byte : Nat → Byte) (a : Nat) :
    Live (m.alloc n byte) a ↔ a = m.brk ∨ Live m a := by
  by_cases ha : a = m.brk
  · subst a
    simp [Live, Mem.alloc]
  · simp [Live, Mem.alloc, ha]

theorem addToLog_owned (c : Nat) (e : Entry) (s : AddPc) :
    (addToLog c e s).Verified LogLock.holds relied ownedFree owned (.add c e s) := by
  cases s with
  | lock => exact fun d _ hd => hd
  | wait => exact fun d => ⟨fun _ hd => hd, fun _ hd => hd⟩
  | signal | broadcast => exact fun _ d _ hd => hd
  | unlock => exact fun d _ hd => hd
  | incWaiting | decWaiting | setWriter | addSize | clear =>
      exact verified_held rfl fun _ d hd => hd
  | check | testWaiting | grow | growLoop =>
      apply verified_held rfl
      intro _ d hd
      dsimp only
      split <;> exact hd
  | malloc m =>
      refine malloc_held rfl (fun byte d _ _ hd a => ?_) fun d hd => hd
      rw [live_alloc, hd a]
      exact or_comm
  | copyOld m new src n i =>
      apply verified_held rfl
      intro byte d hd
      split
      · intro a
        rw [live_store, hd a]
        exact Iff.rfl
      · exact hd
  | free m new =>
      apply verified_stmt rfl
      intro _ d hB hd a
      obtain ⟨-, -, hne, -⟩ := (hB rfl).content
      have hne : new ≠ d.log.buffer := hne
      rw [live_free, hd a]
      show a ≠ d.log.buffer ∧ (a = d.log.buffer ∨ a = new) ↔ a = new
      constructor
      · rintro ⟨hnot, h⟩
        exact h.resolve_left hnot
      · rintro rfl
        exact ⟨hne, .inr rfl⟩
  | setBuffer m new => exact verified_held rfl fun _ d hd => hd
  | setCapacity m => exact verified_held rfl fun _ d hd => hd
  | memcpy => exact verified_held rfl fun _ d hd => hd
  | copying dst off i =>
      apply verified_held rfl
      intro _ d hd
      split
      · intro a
        rw [live_store, hd a]
        exact Iff.rfl
      · exact hd
  | terminate =>
      apply verified_held rfl
      intro _ d hd a
      rw [live_store, hd a]
      exact Iff.rfl

theorem owned_congr (hm : d'.mem = d.mem) (r : Pc) (h : owned r d) : owned r d' := by
  cases r with
  | get c s => simpa only [owned, ownedFree, Shared.log, hm] using h
  | add c e s => simpa only [owned, hm] using h
  | idle | addTest | addRet => trivial

theorem outside_owned (hm : d'.mem = d.mem) :
    (ownedFree d → ownedFree d') ∧ ∀ r, owned r d → owned r d' :=
  ⟨fun h => by simpa only [ownedFree, Shared.log, hm] using h, owned_congr hm⟩

theorem getLog_owned (c : Nat) (s : GetPc) :
    (getLog c s).Verified LogLock.holds relied ownedFree owned (.get c s) := by
  cases s with
  | lock | unlock | endLock | endUnlock => exact fun d _ hd => hd
  | wait => exact fun d => ⟨fun _ hd => hd, fun _ hd => hd⟩
  | signal => exact fun _ d _ hd => hd
  | check | testReaders | incReaders | decReaders => exact verified_held rfl fun _ d hd => hd
  | malloc => exact malloc_free rfl (fun _ d => outside_owned rfl) fun d => outside_owned rfl
  | _ => exact verified_free rfl fun _ d => outside_owned rfl

theorem code_owned (p : Pc) : (code p).Verified LogLock.holds relied ownedFree owned p := by
  cases p with
  | idle =>
      intro d x d' q h _
      have hedge : Edge d .idle q d' := goes_edge ⟨x, h⟩
      cases hedge <;> exact outside_owned rfl
  | addTest c data n =>
      intro d x d' q h _
      have hedge : Edge d (.addTest c data n) q d' := goes_edge ⟨x, h⟩
      cases hedge <;> exact outside_owned rfl
  | addRet c => exact verified_free rfl fun _ d => outside_owned rfl
  | get c s => exact getLog_owned c s
  | add c e s => exact addToLog_owned c e s

variable {Tid : Type} [DecidableEq Tid] {byte : Nat → Byte} {σ : LogState Tid} {t : Tid}

theorem start_owned (byte : Nat → Byte) : ownedFree (createLog byte) := by
  intro a
  rw [createLog, live_store, live_alloc]
  simp [Live, Mem.store, Mem.alloc]

theorem owned_annotated (h : Reachable (machine Tid) (start Tid byte) σ) :
    Annotated LogLock.holds ownedFree owned σ := by
  refine Outline.reachable ⟨fun _ => code_bracketed, fun _ => code_owned⟩ h (start_guarded byte)
    (fun τ hr u hu => ?_) ⟨fun _ => start_owned byte, fun t p hp hh => ?_⟩
  · exact (sized_annotated hr).2 u _ (run_of_inWrite hr hu) (holds_of_inWrite hu)
  · obtain rfl : Pc.idle = p := by simpa [start] using hp
    simp [LogLock.holds] at hh

theorem Block.valid {m : Mem} {a cap i : Nat} {bs : List Byte} (h : Block m a cap bs)
    (hi : i < cap) : ∃ blk, m.heap a = some blk ∧ i < blk.length := by
  obtain ⟨blk, hb, rfl, -⟩ := h
  exact ⟨blk, hb, hi⟩

theorem get_valid [Fintype Tid] (h : Reachable (machine Tid) (start Tid byte) σ)
    {cap src n i : Nat} {dst : List Byte} (hp : σ.place t = .get c (.copying cap src n i dst)) :
    n ≤ cap ∧ ∀ j < n, (Access.load src j).Valid σ.data.mem := by
  have hcopied := copied_reachable h t
  rw [hp] at hcopied
  obtain ⟨-, rfl, rfl, rfl, -⟩ := hcopied
  have hrep := (rep_of_counted h (t := t) (by rw [hp]; rfl)).1
  have hle := hrep.block.length_le
  rw [List.length_append, List.length_singleton] at hle
  exact ⟨le_rfl, fun j hj => Block.valid hrep.block (hj.trans_le hle)⟩

theorem add_valid (h : Reachable (machine Tid) (start Tid byte) σ) {s : AddPc}
    (hp : σ.phase t = .run (.add c e s)) :
    ∀ x ∈ accesses σ.data (.add c e s), x.Valid σ.data.mem := by
  have hsized := (sized_annotated h).2 t _ hp
  cases s with
  | copyOld m new src n i =>
      obtain ⟨hg, hm, rfl, rfl, -, -, -, hblk⟩ := (hsized rfl).content
      have hle := hg.rep.block.length_le
      rw [List.length_append, List.length_singleton] at hle
      intro x hx
      rw [accesses] at hx
      split at hx
      · next hi =>
        rw [List.mem_cons, List.mem_singleton] at hx
        rcases hx with rfl | rfl
        · exact Block.valid hg.rep.block (by omega)
        · exact Block.valid hblk (by omega)
      · cases hx
  | free m new =>
      obtain ⟨hg, -⟩ := (hsized rfl).content
      intro x hx
      obtain rfl := List.mem_singleton.1 hx
      obtain ⟨blk, hb, -⟩ := hg.rep.block
      rw [Access.Valid, hb]
      exact Option.some_ne_none blk
  | copying dst off i =>
      obtain ⟨hw, -, rfl, rfl, -⟩ := (hsized rfl).content
      have hroom := hw.room
      intro x hx
      rw [accesses] at hx
      split at hx
      · next hi =>
        obtain rfl := List.mem_singleton.1 hx
        exact Block.valid hw.block (by omega)
      · cases hx
  | terminate =>
      obtain ⟨hw, hs⟩ := (hsized rfl).content
      have hs : σ.data.log.size = (logged σ.data.trace).length + e.bytes.length := hs
      have hroom := hw.room
      intro x hx
      obtain rfl := List.mem_singleton.1 hx
      exact Block.valid hw.block (by omega)
  | _ => nofun

/-- The memory of the log in a state: what the threads do next stays in live blocks, the
copies of `get_log` fit, and the live blocks are those that the log and a growing call
own. What `destroy_log` would leave is nothing. -/
structure Safe (σ : LogState Tid) : Prop where
  valid : ∀ t p, σ.phase t = .run p → ∀ x ∈ accesses σ.data p, x.Valid σ.data.mem
  fits : ∀ t c cap src n i dst, σ.phase t = .run (.get c (.copying cap src n i dst)) → n ≤ cap
  free : σ.owner = none → ∀ a, Live σ.data.mem a ↔ a = σ.data.log.buffer
  held : ∀ t c e s, σ.phase t = .run (.add c e s) → σ.owner = some t →
    ∀ a, Live σ.data.mem a ↔ AddPc.owns σ.data.mem a s
  destroyed : σ.owner = none → ∀ a, ¬ Live (destroyLog σ.data.mem) a

theorem memory_safe [Fintype Tid] (h : Reachable (machine Tid) (start Tid byte) σ) : Safe σ := by
  obtain ⟨hfree, hheld⟩ := owned_annotated h
  refine ⟨fun t p hp => ?_, fun t c cap src n i dst hp => ?_, hfree, fun t c e s hp ho => ?_,
    fun ho a => ?_⟩
  · cases p with
    | idle | addTest | addRet => nofun
    | add c e s => exact add_valid h hp
    | get c s =>
        cases s with
        | copying cap src n i dst =>
            intro x hx
            rw [accesses] at hx
            split at hx
            · next hi =>
              obtain rfl := List.mem_singleton.1 hx
              exact (get_valid h (place_of_run hp)).2 i hi
            · cases hx
        | _ => nofun
  · exact (get_valid h (place_of_run hp)).1
  · have hh := ((guarded h).1 t).2 ho
    rw [hp] at hh
    exact hheld t _ hp hh
  · rw [destroyLog, live_free]
    rintro ⟨hne, hlive⟩
    exact hne ((hfree ho a).1 hlive)

theorem copying_runs : (((machine (Fin 2)).replay (writeThenRead.take 26)
    (start (Fin 2) fun _ => 0)).any fun σ =>
      match σ.phase 1 with
      | .run (.get 1 (.copying 2 0 2 1 [97])) => true
      | _ => false) = true := by
  decide +kernel

theorem memory_safe_copying : ∃ σ, Reachable (machine (Fin 2)) (start (Fin 2) fun _ => 0) σ ∧
    σ.phase 1 = .run (.get 1 (.copying 2 0 2 1 [97])) ∧ Safe σ := by
  obtain ⟨σ, hσ, hcopying⟩ := (Option.any_eq_true _ _).1 copying_runs
  have h := replay_reachable hσ
  refine ⟨σ, h, ?_, memory_safe h⟩
  split at hcopying
  · assumption
  · cases hcopying

end WebServer.LogSafety
