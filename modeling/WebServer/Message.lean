import Mathlib.Data.List.Infix
import Mathlib.Data.Nat.Digits.Lemmas

namespace WebServer.Message

abbrev Bytes := List UInt8

def str (s : String) : Bytes := s.toList.map fun c => c.toNat.toUInt8

def crlf : Bytes := [13, 10]

/-- The characters before the first NUL. -/
def cstr (bs : Bytes) : Bytes := bs.takeWhile fun b => decide (b ≠ 0)

def digit (d : Nat) : UInt8 := (48 + d).toUInt8

/-- `%u` -/
def decimal (n : Nat) : Bytes :=
  if n = 0 then [48] else ((Nat.digits 10 n).map digit).reverse

/-- `%d` -/
def signed (n : Int) : Bytes :=
  if n < 0 then 45 :: decimal n.natAbs else decimal n.natAbs

/-- `%0wd` -/
def padded (w : Nat) (n : Int) : Bytes :=
  let ds := decimal n.natAbs
  if n < 0 then 45 :: (List.replicate (w - 1 - ds.length) 48 ++ ds)
  else List.replicate (w - ds.length) 48 ++ ds

def Plain (bs : Bytes) : Prop := 13 ∉ bs ∧ 10 ∉ bs

instance (bs : Bytes) : Decidable (Plain bs) := by unfold Plain; infer_instance

theorem plain_append {a b : Bytes} : Plain (a ++ b) ↔ Plain a ∧ Plain b := by
  simp only [Plain, List.mem_append, not_or]
  tauto

theorem plain_cons {b : UInt8} {bs : Bytes} (h13 : b ≠ 13) (h10 : b ≠ 10) (h : Plain bs) :
    Plain (b :: bs) := by
  simp only [Plain, List.mem_cons, not_or]
  exact ⟨⟨h13.symm, h.1⟩, h10.symm, h.2⟩

theorem digit_plain : ∀ d < 10, digit d ≠ 13 ∧ digit d ≠ 10 := by decide

theorem decimal_plain (n : Nat) : Plain (decimal n) := by
  rw [decimal]
  split
  · decide
  · constructor <;> intro h <;> rw [List.mem_reverse, List.mem_map] at h <;>
      obtain ⟨d, hd, he⟩ := h
    · exact (digit_plain d (Nat.digits_lt_base (by omega) hd)).1 he
    · exact (digit_plain d (Nat.digits_lt_base (by omega) hd)).2 he

theorem signed_plain (n : Int) : Plain (signed n) := by
  rw [signed]
  split
  · exact plain_cons (by decide) (by decide) (decimal_plain _)
  · exact decimal_plain _

theorem replicate_plain (n : Nat) : Plain (List.replicate n 48) := by
  constructor <;> intro h <;> simp [List.mem_replicate] at h

theorem padded_plain (w : Nat) (n : Int) : Plain (padded w n) := by
  rw [padded]
  split
  · exact plain_cons (by decide) (by decide)
      (plain_append.2 ⟨replicate_plain _, decimal_plain _⟩)
  · exact plain_append.2 ⟨replicate_plain _, decimal_plain _⟩

/-- Cut a message at its first empty line: what stands before it, and the body. -/
def splitHeader : Bytes → Option (Bytes × Bytes)
  | [] => none
  | b :: s =>
      if crlf ++ crlf <+: b :: s then some ([], (b :: s).drop 4)
      else (splitHeader s).map fun r => (b :: r.1, r.2)

theorem splitHeader_eq {s h b : Bytes} (hs : splitHeader s = some (h, b)) :
    s = h ++ crlf ++ crlf ++ b ∧ ∀ h' b', s = h' ++ crlf ++ crlf ++ b' → h.length ≤ h'.length := by
  induction s generalizing h b with
  | nil => simp [splitHeader] at hs
  | cons c s ih =>
      rw [splitHeader] at hs
      split at hs
      · next hp =>
        obtain ⟨rfl, rfl⟩ := by simpa using hs
        obtain ⟨t, ht⟩ := hp
        refine ⟨?_, fun _ _ _ => Nat.zero_le _⟩
        have hs : [10, 13, 10] ++ t = s := (List.cons.inj ht).2
        rw [← ht, ← hs]
        rfl
      · next hp =>
        obtain ⟨⟨h₁, b₁⟩, hs₁, he⟩ := Option.map_eq_some_iff.1 hs
        obtain ⟨rfl, rfl⟩ := Prod.mk.inj he
        obtain ⟨hcut, hmin⟩ := ih hs₁
        refine ⟨by simp [hcut], fun h' b' he => ?_⟩
        cases h' with
        | nil => exact absurd ⟨b', by simp [he]⟩ hp
        | cons x h' =>
            have he' : s = h' ++ crlf ++ crlf ++ b' := by
              simp only [List.cons_append] at he
              exact (List.cons.inj he).2
            exact Nat.succ_le_succ (hmin h' b' he')

def render (lines : List Bytes) : Bytes := lines.flatMap fun l => l ++ crlf

theorem splitHeader_plain {l : Bytes} (hl : Plain l) (s : Bytes) :
    splitHeader (l ++ s) = (splitHeader s).map fun r => (l ++ r.1, r.2) := by
  induction l with
  | nil => simp
  | cons b l ih =>
      have hb : ¬ crlf ++ crlf <+: b :: (l ++ s) := by
        rintro ⟨t, ht⟩
        have : b = 13 := (List.cons.inj ht).1.symm
        exact hl.1 (by simp [this])
      have hl' : Plain l := ⟨fun h => hl.1 (List.mem_cons_of_mem _ h),
        fun h => hl.2 (List.mem_cons_of_mem _ h)⟩
      rw [List.cons_append, splitHeader, if_neg hb, ih hl', Option.map_map]
      rfl

theorem splitHeader_crlf {b : UInt8} {s : Bytes} (hb : b ≠ 13) :
    splitHeader (crlf ++ b :: s) = (splitHeader (b :: s)).map fun r => (crlf ++ r.1, r.2) := by
  have h₁ : ¬ crlf ++ crlf <+: 13 :: 10 :: b :: s := by
    rintro ⟨t, ht⟩
    simp only [crlf, List.cons_append, List.nil_append, List.cons.injEq, true_and] at ht
    exact hb ht.1.symm
  have h₂ : ¬ crlf ++ crlf <+: 10 :: b :: s := by
    rintro ⟨t, ht⟩
    simp [crlf] at ht
  rw [crlf, List.cons_append, List.cons_append, List.nil_append, splitHeader, if_neg h₁, splitHeader,
    if_neg h₂, Option.map_map]
  rfl

theorem splitHeader_render {lines : List Bytes} (hne : lines ≠ [])
    (hp : ∀ l ∈ lines, l ≠ [] ∧ Plain l) (body : Bytes) :
    ∃ h, splitHeader (render lines ++ crlf ++ body) = some (h, body) ∧ h ++ crlf = render lines := by
  induction lines with
  | nil => exact absurd rfl hne
  | cons l lines ih =>
      have hl := hp l (by simp)
      cases lines with
      | nil =>
          refine ⟨l, ?_, by simp [render]⟩
          have hsplit : splitHeader (crlf ++ crlf ++ body) = some ([], body) := by
            simp [splitHeader, crlf]
          have happ : render [l] ++ crlf ++ body = l ++ (crlf ++ crlf ++ body) := by
            simp [render]
          rw [happ, splitHeader_plain hl.2, hsplit]
          simp
      | cons l' lines =>
          obtain ⟨h, hh, hr⟩ := ih (by simp) fun x hx => hp x (by simp [hx])
          obtain ⟨b, rest, hb⟩ := List.exists_cons_of_ne_nil (hp l' (by simp)).1
          have hb13 : b ≠ 13 := fun h => (hp l' (by simp)).2.1 (by simp [hb, h])
          refine ⟨l ++ crlf ++ h, ?_, ?_⟩
          · have happ : render (l :: l' :: lines) ++ crlf ++ body =
                l ++ (crlf ++ (render (l' :: lines) ++ crlf ++ body)) := by simp [render]
            have hcons : render (l' :: lines) ++ crlf ++ body =
                b :: (rest ++ crlf ++ render lines ++ crlf ++ body) := by simp [render, hb]
            rw [happ, splitHeader_plain hl.2, hcons, splitHeader_crlf hb13, ← hcons, hh]
            simp
          · rw [List.append_assoc, hr]
            simp [render]

def splitLines : Bytes → List Bytes
  | [] => [[]]
  | [b] => [[b]]
  | b :: c :: s =>
      if b = 13 ∧ c = 10 then [] :: splitLines s else (splitLines (c :: s)).modifyHead (b :: ·)

theorem splitLines_cons {b : UInt8} {s : Bytes} (hb : b ≠ 13) :
    splitLines (b :: s) = (splitLines s).modifyHead (b :: ·) := by
  cases s with
  | nil => rfl
  | cons c s => rw [splitLines, if_neg fun h => hb h.1]

theorem splitLines_plain {l : Bytes} (hl : Plain l) (s : Bytes) :
    splitLines (l ++ crlf ++ s) = l :: splitLines s := by
  induction l with
  | nil => simp [splitLines, crlf]
  | cons b l ih =>
      have hb : b ≠ 13 := fun h => hl.1 (by simp [h])
      have hl' : Plain l := ⟨fun h => hl.1 (List.mem_cons_of_mem _ h),
        fun h => hl.2 (List.mem_cons_of_mem _ h)⟩
      rw [List.cons_append, List.cons_append, splitLines_cons hb, ih hl']
      rfl

theorem splitLines_one {l : Bytes} (hl : Plain l) : splitLines l = [l] := by
  induction l with
  | nil => rfl
  | cons b l ih =>
      have hb : b ≠ 13 := fun h => hl.1 (by simp [h])
      have hl' : Plain l := ⟨fun h => hl.1 (List.mem_cons_of_mem _ h),
        fun h => hl.2 (List.mem_cons_of_mem _ h)⟩
      rw [splitLines_cons hb, ih hl']
      rfl

theorem splitLines_render {lines : List Bytes} (hne : lines ≠ []) (hp : ∀ l ∈ lines, Plain l) :
    ∃ h, h ++ crlf = render lines ∧ splitLines h = lines := by
  induction lines with
  | nil => exact absurd rfl hne
  | cons l lines ih =>
      have hl := hp l (by simp)
      cases lines with
      | nil => exact ⟨l, by simp [render], splitLines_one hl⟩
      | cons l' lines =>
          obtain ⟨h, hr, hs⟩ := ih (by simp) fun x hx => hp x (by simp [hx])
          refine ⟨l ++ crlf ++ h, ?_, ?_⟩
          · rw [List.append_assoc, hr]
            simp [render]
          · rw [splitLines_plain hl, hs]

def parse (s : Bytes) : Option (List Bytes × Bytes) :=
  (splitHeader s).map fun r => (splitLines r.1, r.2)

theorem parse_render {lines : List Bytes} (hne : lines ≠ [])
    (hp : ∀ l ∈ lines, l ≠ [] ∧ Plain l) (body : Bytes) :
    parse (render lines ++ crlf ++ body) = some (lines, body) := by
  obtain ⟨h, hs, hr⟩ := splitHeader_render hne hp body
  obtain ⟨h', hr', hl⟩ := splitLines_render hne fun l hm => (hp l hm).2
  obtain rfl : h = h' := List.append_cancel_right (hr.trans hr'.symm)
  rw [parse, hs, Option.map_some, hl]

end WebServer.Message
