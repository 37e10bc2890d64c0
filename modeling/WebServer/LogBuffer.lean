import Mathlib.Data.List.Infix
import WebServer.LogLock

namespace WebServer.LogBuffer

open Monitor ServerLog LogLock

def entries (tr : List Event) : List (Nat × List Byte) :=
  tr.filterMap fun
    | .wrote c e => some (c, e)
    | _ => none

def text (es : List (Nat × List Byte)) : List Byte := es.flatMap Prod.snd

def logged (tr : List Event) : List Byte := text (entries tr)

def Bounded (tr : List Event) : Prop := (logged tr).length < 2 ^ 31

theorem entries_append (tr tr' : List Event) : entries (tr ++ tr') = entries tr ++ entries tr' :=
  List.filterMap_append

theorem logged_append (tr tr' : List Event) : logged (tr ++ tr') = logged tr ++ logged tr' := by
  simp [logged, text, entries_append]

theorem logged_wrote (tr : List Event) (c : Nat) (e : List Byte) :
    logged (tr ++ [.wrote c e]) = logged tr ++ e := by
  simp [logged, text, entries]

theorem logged_other (tr : List Event) {e : Event} (h : entries [e] = []) :
    logged (tr ++ [e]) = logged tr := by
  rw [logged, entries_append, h, List.append_nil, logged]

theorem Bounded.of_append {tr tr' : List Event} (h : Bounded (tr ++ tr')) : Bounded tr := by
  rw [Bounded, logged_append, List.length_append] at h
  rw [Bounded]
  omega

def Fresh (d : Mem) : Prop := d.log.buffer < d.brk ∧ ∀ a, d.brk ≤ a → d.heap a = none

/-- Address `a` holds a live block of `cap` bytes that begins with `bs`. -/
def Block (d : Mem) (a cap : Nat) (bs : List Byte) : Prop :=
  ∃ blk, d.heap a = some blk ∧ blk.length = cap ∧ bs <+: blk

def Roomy (cap size : Nat) : Prop := 4096 ≤ cap ∧ cap ≤ max 4096 (2 * (size + 1))

structure Rep (d : Mem) (content : List Byte) : Prop where
  block : Block d d.log.buffer d.log.capacity (content ++ [0])
  size : d.log.size = content.length
  fresh : Fresh d
  roomy : Roomy d.log.capacity content.length

theorem Block.length_le {d : Mem} {a cap : Nat} {bs : List Byte} (h : Block d a cap bs) :
    bs.length ≤ cap := by
  obtain ⟨blk, -, rfl, hp⟩ := h
  exact hp.length_le

theorem Block.mono {d : Mem} {a cap : Nat} {bs bs' : List Byte} (h : Block d a cap bs)
    (hp : bs' <+: bs) : Block d a cap bs' := by
  obtain ⟨blk, hb, hl, hbs⟩ := h
  exact ⟨blk, hb, hl, hp.trans hbs⟩

theorem set_prefix {bs blk : List Byte} (h : bs <+: blk) (b : Byte) (hl : bs.length < blk.length) :
    bs ++ [b] <+: blk.set bs.length b := by
  obtain ⟨rest, rfl⟩ := h
  cases rest with
  | nil => simp at hl
  | cons x rest => exact ⟨rest, by simp⟩

theorem Block.store {d : Mem} {a cap : Nat} {bs : List Byte} (h : Block d a cap bs) (b : Byte)
    (hl : bs.length < cap) : Block (d.store a bs.length b) a cap (bs ++ [b]) := by
  obtain ⟨blk, hb, rfl, hp⟩ := h
  exact ⟨blk.set bs.length b, by simp [Mem.store, hb], by simp, set_prefix hp b hl⟩

theorem Block.store_other {d : Mem} {a a' cap : Nat} {bs : List Byte} (h : Block d a cap bs)
    (hne : a' ≠ a) (i : Nat) (b : Byte) : Block (d.store a' i b) a cap bs := by
  obtain ⟨blk, hb, hl, hp⟩ := h
  exact ⟨blk, by simpa [Mem.store, Ne.symm hne] using hb, hl, hp⟩

theorem Block.free_other {d : Mem} {a a' cap : Nat} {bs : List Byte} (h : Block d a cap bs)
    (hne : a' ≠ a) : Block (d.free a') a cap bs := by
  obtain ⟨blk, hb, hl, hp⟩ := h
  exact ⟨blk, by simpa [Mem.free, Ne.symm hne] using hb, hl, hp⟩

theorem Block.load {d : Mem} {a cap : Nat} {bs : List Byte} (h : Block d a cap bs) {i : Nat}
    (hi : i < bs.length) (other : Byte) : d.load a i other = bs[i] := by
  obtain ⟨blk, hb, -, rest, rfl⟩ := h
  simp [Mem.load, hb, List.getElem?_append_left hi, List.getElem?_eq_getElem hi]

theorem Fresh.store {d : Mem} (h : Fresh d) {a : Nat} (ha : a < d.brk) (i : Nat) (b : Byte) :
    Fresh (d.store a i b) := by
  refine ⟨h.1, fun a' ha' => ?_⟩
  have hne : a' ≠ a := by rintro rfl; simp only [Mem.store] at ha'; omega
  simpa [Mem.store, hne] using h.2 a' ha'

theorem Fresh.free {d : Mem} (h : Fresh d) (a : Nat) : Fresh (d.free a) := by
  refine ⟨h.1, fun a' ha' => ?_⟩
  by_cases hne : a' = a
  · simp [Mem.free, hne]
  · simpa [Mem.free, hne] using h.2 a' ha'

theorem Fresh.alloc {d : Mem} (h : Fresh d) (n : Nat) (byte : Nat → Byte) :
    Fresh (d.alloc n byte) := by
  have hb := h.1
  refine ⟨by simp only [Mem.alloc]; omega, fun a ha => ?_⟩
  simp only [Mem.alloc] at ha ⊢
  rw [Function.update_of_ne (by omega)]
  exact h.2 a (by omega)

theorem Block.alloc {d : Mem} {a cap : Nat} {bs : List Byte} (h : Block d a cap bs)
    (ha : a < d.brk) (n : Nat) (byte : Nat → Byte) : Block (d.alloc n byte) a cap bs := by
  obtain ⟨blk, hb, hl, hp⟩ := h
  refine ⟨blk, ?_, hl, hp⟩
  simp only [Mem.alloc]
  rwa [Function.update_of_ne (by omega)]

theorem block_alloc (d : Mem) (n : Nat) (byte : Nat → Byte) :
    Block (d.alloc n byte) d.brk n [] :=
  ⟨(List.range n).map byte, by simp [Mem.alloc], by simp, List.nil_prefix⟩

theorem Rep.congr {d : Mem} {content : List Byte} (h : Rep d content) (r w n : Int) :
    Rep { d with log := { d.log with readers := r, writers := w, waitingWriters := n } } content :=
  ⟨h.block, h.size, h.fresh, h.roomy⟩

theorem start_rep (byte : Nat → Byte) : Rep (createLog byte).mem [] := by
  let d : Mem := ⟨⟨0, 0, 4096, 0, 0, 0⟩, fun _ => none, 0⟩
  refine ⟨(block_alloc d 4096 byte).store 0 (by simp), rfl, ?_, ⟨le_rfl, le_max_left _ _⟩⟩
  have hfresh : Fresh (d.alloc 4096 byte) := by
    refine ⟨by simp [Mem.alloc, d], fun a ha => ?_⟩
    simp only [Mem.alloc] at ha ⊢
    rw [Function.update_of_ne (by omega)]
  exact hfresh.store hfresh.1 0 0

structure Writing (d : Mem) (before entry bs : List Byte) : Prop where
  block : Block d d.log.buffer d.log.capacity bs
  fresh : Fresh d
  room : before.length + entry.length + 1 ≤ d.log.capacity
  roomy : Roomy d.log.capacity (before.length + entry.length)

/-- `add_to_log` is replacing the buffer by a larger one of `m` bytes. -/
structure Growing (d : Mem) (before entry : List Byte) (m : Nat) : Prop where
  rep : Rep d before
  low : 4096 ≤ m
  high : m ≤ 2 * (before.length + entry.length + 1)

def AddPc.content (d : Mem) (before entry : List Byte) : AddPc → Prop
  | .lock => True
  | .incWaiting | .check | .wait | .decWaiting | .setWriter | .grow => Rep d before
  | .growLoop m => Growing d before entry m
  | .malloc m => Growing d before entry m ∧ before.length + entry.length + 1 ≤ m
  | .copyOld m new src n i => Growing d before entry m ∧ before.length + entry.length + 1 ≤ m ∧
      src = d.log.buffer ∧ n = before.length ∧ i ≤ n ∧ new ≠ src ∧ new < d.brk ∧
      Block d new m (before.take i)
  | .free m new => Growing d before entry m ∧ before.length + entry.length + 1 ≤ m ∧
      new ≠ d.log.buffer ∧ new < d.brk ∧ Block d new m before
  | .setBuffer m new => before.length + entry.length + 1 ≤ m ∧
      Roomy m (before.length + entry.length) ∧ Fresh d ∧ new < d.brk ∧ Block d new m before ∧
      d.log.size = before.length
  | .setCapacity m => before.length + entry.length + 1 ≤ m ∧
      Roomy m (before.length + entry.length) ∧ Fresh d ∧ Block d d.log.buffer m before ∧
      d.log.size = before.length
  | .memcpy => Writing d before entry before ∧ d.log.size = before.length
  | .copying dst off i => Writing d before entry (before ++ entry.take i) ∧
      d.log.size = before.length ∧ dst = d.log.buffer ∧ off = before.length ∧ i ≤ entry.length
  | .addSize => Writing d before entry (before ++ entry) ∧ d.log.size = before.length
  | .terminate => Writing d before entry (before ++ entry) ∧
      d.log.size = before.length + entry.length
  | .clear => Rep d (before ++ entry)
  | .testWaiting | .signal | .broadcast | .unlock => Rep d before

def afterSection : AddPc → Bool
  | .testWaiting | .signal | .broadcast | .unlock => true
  | _ => false

end WebServer.LogBuffer
