import WebServer.LogAtomic
import WebServer.LogCalls

namespace WebServer.LogGrowth

open Monitor ServerLog LogLock LogBuffer LogContent LogHistory LogAtomic LogCalls

variable {Tid : Type} [DecidableEq Tid] {byte : Nat → Byte} {σ : LogState Tid} {t : Tid} {c : Nat}
  {e : Entry} {d d' : Shared} {p q : Pc}

def need (d : Shared) (e : Entry) : Nat := sizeT (d.log.size + e.bytes.length + 1)

def Holds (d : Mem) (a off n : Nat) : Prop := ∃ blk, d.heap a = some blk ∧ off + n ≤ blk.length

theorem Block.holds {d : Mem} {a cap off n : Nat} {bs : List Byte} (h : Block d a cap bs)
    (hn : off + n ≤ cap) : Holds d a off n := by
  obtain ⟨blk, hb, rfl, -⟩ := h
  exact ⟨blk, hb, hn⟩

/-- No sum and no doubling wraps around and the loop over the capacity ends; the copies and
the terminator stay inside the old and the new buffer. -/
def Inside (t : Tid) (c : Nat) (e : Entry) (d : Shared) (s : AddPc) : Prop :=
  match s with
  | .grow => need d e = d.log.size + e.bytes.length + 1 ∧
      sizeT (d.log.capacity * 2) = d.log.capacity * 2
  | .growLoop m => (m < need d e → sizeT (m * 2) = m * 2) ∧ (d.running = true → ∃ m', need d e ≤ m' ∧
      Path (machine Tid) t (.add c e (.growLoop m)) d (.add c e (.malloc m')) d)
  | .copyOld _ new src n _ => Holds d.mem new 0 n ∧ Holds d.mem src 0 n
  | .copying dst off _ => Holds d.mem dst off e.bytes.length
  | .addSize => sizeT (d.log.size + e.bytes.length) = d.log.size + e.bytes.length
  | .terminate => Holds d.mem d.log.buffer d.log.size 1
  | _ => True

theorem inside_reachable (h : Reachable (machine Tid) (start Tid byte) σ) {s : AddPc}
    (hp : σ.phase t = .run (.add c e s)) : Inside t c e σ.data s := by
  have hsized := (sized_annotated h).2 t _ hp
  have he := e.fits
  cases s with
  | grow =>
      have hs := hsized rfl
      have hrep : Rep σ.data.mem (logged σ.data.trace) := hs.content
      have hsize : σ.data.log.size = (logged σ.data.trace).length := hrep.size
      refine ⟨?_, hs.capacity.double.2⟩
      rw [need, Shared.log, Rep.need hrep hs.capacity he, hrep.size]
  | growLoop m =>
      have hs := hsized rfl
      have hg : Growing σ.data.mem (logged σ.data.trace) e.bytes m := hs.content
      have hlen := Rep.length_lt hg.rep hs.capacity
      have hneed := Rep.need hg.rep hs.capacity he
      refine ⟨fun hlt => (hs.double he hlt).2, fun live => ?_⟩
      obtain ⟨m', hle, -, hloop⟩ := @path_growLoop Tid t c e σ.data m live (hs.next m rfl).1
        (by rw [Shared.log, hneed]; omega)
      exact ⟨m', hle, hloop⟩
  | copyOld m new src n i =>
      obtain ⟨hg, hm, rfl, rfl, -, -, -, hblk⟩ := (hsized rfl).content
      have hle := hg.rep.block.length_le
      rw [List.length_append] at hle
      exact ⟨Block.holds hblk (by omega), Block.holds hg.rep.block (by omega)⟩
  | copying dst off i =>
      obtain ⟨hw, -, rfl, rfl, -⟩ := (hsized rfl).content
      have hroom := hw.room
      exact Block.holds hw.block (by omega)
  | addSize =>
      have hs := hsized rfl
      obtain ⟨hw, hsize⟩ := hs.content
      have hsize : σ.data.log.size = (logged σ.data.trace).length := hsize
      have hroom := hw.room
      have hle := hs.capacity.le
      exact sizeT_small (by omega)
  | terminate =>
      obtain ⟨hw, hs⟩ := (hsized rfl).content
      have hs : σ.data.log.size = (logged σ.data.trace).length + e.bytes.length := hs
      have hroom := hw.room
      exact Block.holds hw.block (by omega)
  | _ => trivial

/-- The buffer holds `content` and its terminator, and its capacity is 4096 times a power
of two and at most twice what it needs. -/
structure Kept (d : Mem) (content : List Byte) : Prop where
  content : ∃ blk, d.heap d.log.buffer = some blk ∧ blk.length = d.log.capacity ∧
    blk.take d.log.size = content ∧ blk[d.log.size]? = some 0
  fits : d.log.size < d.log.capacity
  doubled : ∃ k, d.log.capacity = 4096 * 2 ^ k
  roomy : d.log.capacity ≤ max 4096 (2 * (d.log.size + 1))

theorem Rep.kept {d : Mem} {content : List Byte} (h : Rep d content) (hc : Doubled d.log.capacity) :
    Kept d content := by
  have hle := h.block.length_le
  rw [List.length_append, List.length_singleton, ← h.size] at hle
  obtain ⟨blk, hb, hlen, rest, rfl⟩ := h.block
  refine ⟨⟨_, hb, hlen, ?_, ?_⟩, hle, ?_, ?_⟩
  · rw [h.size, List.append_assoc, List.take_left]
  · rw [h.size, List.append_assoc]
    simp
  · obtain ⟨k, hk, -, hcap⟩ := hc
    refine ⟨k - 12, ?_⟩
    rw [hcap, show 4096 = 2 ^ 12 from rfl, ← Nat.pow_add, Nat.add_sub_cancel' hk]
  · rw [h.size]
    exact h.roomy.2

/-- The data of the calls, in their order; a length that is not positive takes none. -/
def accepted (tr : List Event) : List Byte :=
  tr.flatMap fun
    | .callAdd _ (some bs) n => bs.take n.1.toNat
    | _ => []

/-- What the call of a thread has still to log. -/
def pending : Pc → List Byte
  | .addTest _ (some bs) n => bs.take n.1.toNat
  | .add _ e s => if afterSection s then [] else e.bytes
  | _ => []

theorem accepted_append (tr tr' : List Event) : accepted (tr ++ tr') = accepted tr ++ accepted tr' :=
  List.flatMap_append

theorem move_pending (hm : Move p d q d') (h : accepted d.trace = logged d.trace ++ pending p) :
    accepted d'.trace = logged d'.trace ++ pending q := by
  -- an event that adds neither data nor an entry
  have event {x : Event} (hx : accepted [x] = []) (hy : entries [x] = []) :
      accepted (d.trace ++ [x]) = logged (d.trace ++ [x]) ++ pending p := by
    rw [accepted_append, hx, List.append_nil, logged_other _ hy, h]
  cases hm with
  | callGet | retGet | retAdd => exact event rfl rfl
  | callAdd data n =>
      rw [accepted_append, logged_other _ rfl, h]
      cases data <;> simp [accepted, pending]
  | inGet | accept | unlock => exact h
  | ignore c data n hnone =>
      rw [h]
      rcases hnone with rfl | hn
      · rfl
      · cases data with
        | none => rfl
        | some bs => simp [pending, Int.toNat_of_nonpos hn]
  | inAdd c e s s' m r hs =>
      rw [h]
      simp only [pending, hs]
  | wrote c e m =>
      rw [accepted_append, logged_wrote, h]
      simp [accepted, pending, afterSection]

theorem accepted_reachable (h : Reachable (machine Tid) (start Tid byte) σ) (hone : ∀ u, u = t) :
    accepted σ.data.trace = logged σ.data.trace ++ pending (σ.place t) := by
  refine h.place_invariant (I := fun f d => accepted d.trace = logged d.trace ++ pending (f t)) rfl ?_
  intro f d u q d' hi hg
  obtain rfl := hone u
  rw [Function.update_self]
  exact move_pending (goes_move hg) hi

/-- Whatever is added, no size wraps around, nothing is read or written outside the
buffers, and while the mutex is free the buffer holds the text; with one thread this is the
data of all its calls. -/
theorem buffer_kept (h : Reachable (machine Tid) (start Tid byte) σ) :
    (σ.owner = none → Kept σ.data.mem (logged σ.data.trace)) ∧
      (∀ t c e s, σ.phase t = .run (.add c e s) → Inside t c e σ.data s) ∧
      ∀ t, (∀ u, u = t) → σ.phase t = .run .idle → Kept σ.data.mem (accepted σ.data.trace) := by
  have hfree (ho : σ.owner = none) : Kept σ.data.mem (logged σ.data.trace) := by
    obtain ⟨hrep, hcap⟩ := (sized_annotated h).1 ho
    exact Rep.kept hrep hcap
  refine ⟨hfree, fun t c e s => inside_reachable h, fun t hone hidle => ?_⟩
  have hacc := accepted_reachable h hone
  rw [place_of_run hidle, show pending .idle = [] from rfl, List.append_nil] at hacc
  rw [hacc]
  refine hfree ?_
  cases ho : σ.owner with
  | none => rfl
  | some u =>
      obtain rfl := hone u
      have hheld := ((guarded h).1 u).2 ho
      rw [hidle] at hheld
      cases hheld

theorem buffer_kept_twice : ∃ d, Path (machine Unit) () .idle (createLog fun _ => 0) .idle d ∧
    4096 < d.mem.log.capacity ∧ Kept d.mem (97 :: List.replicate 5000 98) := by
  have hblock := List.length_replicate (n := 5000) (a := (98 : Byte))
  generalize List.replicate 5000 (98 : Byte) = block at hblock
  have htext : [[97], block].flatten = 97 :: block := by simp
  obtain ⟨d, hpath, -, hlog⟩ := @path_adds Unit _ (fun _ => 0) () [[97], block]
    (by simp [hblock]) (by rw [htext, List.length_cons, hblock]; decide)
  have hreach := path_reachable hpath
  have hacc : accepted d.trace = 97 :: block := by
    have h := accepted_reachable hreach (t := ()) fun _ => rfl
    rw [place_of_run alone_run, show pending .idle = [] from rfl, List.append_nil] at h
    rw [← htext, ← hlog, ← logged_eq_flatten]
    exact h
  have hkept : Kept d.mem (97 :: block) := by
    rw [← hacc]
    exact (buffer_kept hreach).2.2 () (fun _ => rfl) alone_run
  obtain ⟨blk, -, hcap, htake, -⟩ := hkept.content
  have hlen := congrArg List.length htake
  rw [List.length_take, List.length_cons, hblock] at hlen
  exact ⟨d, hpath, by omega, hkept⟩

end WebServer.LogGrowth
