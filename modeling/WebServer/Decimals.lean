import WebServer.Message

namespace WebServer.Message

variable {n w : Nat} {bs ds : Bytes}

def isDigit (b : UInt8) : Bool := 48 ≤ b && b ≤ 57

def valueFrom (n : Nat) (bs : Bytes) : Nat := bs.foldl (fun n b => 10 * n + (b.toNat - 48)) n

def readDecimal (bs : Bytes) : Option Nat :=
  if bs ≠ [] ∧ bs.all isDigit then some (valueFrom 0 bs) else none

def readSigned (bs : Bytes) : Option Int :=
  if bs.head? = some 45 then (readDecimal bs.tail).map fun n : Nat => -(n : Int)
  else (readDecimal bs).map Int.ofNat

theorem valueFrom_append (n : Nat) (as bs : Bytes) :
    valueFrom n (as ++ bs) = valueFrom (valueFrom n as) bs := List.foldl_append

theorem valueFrom_eq (n : Nat) (bs : Bytes) : valueFrom n bs = n * 10 ^ bs.length + valueFrom 0 bs := by
  induction bs generalizing n with
  | nil => simp [valueFrom]
  | cons b bs ih =>
      have hstep (m : Nat) : valueFrom m (b :: bs) = valueFrom (10 * m + (b.toNat - 48)) bs := rfl
      rw [hstep, hstep, ih, ih (10 * 0 + _), List.length_cons, pow_succ]
      ring

theorem digit_read : ∀ d < 10, isDigit (digit d) = true ∧ (digit d).toNat - 48 = d := by decide

theorem valueFrom_zeros (k : Nat) : valueFrom 0 (List.replicate k 48) = 0 := by
  induction k with
  | zero => rfl
  | succ k ih =>
      rw [List.replicate_succ']
      rw [valueFrom_append, ih]
      rfl

theorem valueFrom_digits {l : List Nat} (hl : ∀ d ∈ l, d < 10) :
    valueFrom 0 (l.map digit).reverse = Nat.ofDigits 10 l := by
  induction l with
  | nil => rfl
  | cons d l ih =>
      have hd := (digit_read d (hl d (by simp))).2
      rw [List.map_cons, List.reverse_cons, valueFrom_append, ih fun x hx => hl x (by simp [hx]),
        Nat.ofDigits_cons]
      simp only [valueFrom, List.foldl_cons, List.foldl_nil, hd]
      exact Nat.add_comm _ _

theorem value_decimal (n : Nat) : valueFrom 0 (decimal n) = n := by
  rw [decimal]
  split
  · next hn => rw [hn]; rfl
  · rw [valueFrom_digits fun d hd => Nat.digits_lt_base (by decide) hd, Nat.ofDigits_digits]

theorem decimal_digits (n : Nat) : ∀ b ∈ decimal n, isDigit b = true := by
  intro b hb
  rw [decimal] at hb
  split at hb
  · obtain rfl := List.mem_singleton.1 hb
    decide
  · rw [List.mem_reverse, List.mem_map] at hb
    obtain ⟨d, hd, rfl⟩ := hb
    exact (digit_read d (Nat.digits_lt_base (by decide) hd)).1

theorem decimal_ne_nil (n : Nat) : decimal n ≠ [] := by
  rw [decimal]
  split
  · simp
  · next hn =>
    simpa using Nat.digits_ne_nil_iff_ne_zero.2 hn

theorem decimal_length {n k : Nat} (hn : n < 10 ^ k) (hk : 0 < k) : (decimal n).length ≤ k := by
  rw [decimal]
  split
  · exact hk
  · rw [List.length_reverse, List.length_map]
    exact (Nat.digits_length_le_iff (by decide) n).2 hn

theorem readDecimal_of (hne : bs ≠ []) (hd : ∀ b ∈ bs, isDigit b = true) :
    readDecimal bs = some (valueFrom 0 bs) := if_pos ⟨hne, List.all_eq_true.2 hd⟩

theorem readDecimal_decimal (n : Nat) : readDecimal (decimal n) = some n := by
  rw [readDecimal_of (decimal_ne_nil n) (decimal_digits n), value_decimal]

theorem head_decimal (n : Nat) : (decimal n).head? ≠ some 45 := by
  intro h
  have hd := decimal_digits n 45 (List.mem_of_mem_head? h)
  exact absurd hd (by decide)

theorem readSigned_signed (n : Int) : readSigned (signed n) = some n := by
  rw [signed]
  split
  · next hn =>
    rw [readSigned, List.head?_cons, if_pos rfl, List.tail_cons, readDecimal_decimal, Option.map_some]
    congr 1
    omega
  · next hn =>
    rw [readSigned, if_neg (head_decimal _), readDecimal_decimal, Option.map_some]
    congr 1
    exact Int.natAbs_of_nonneg (not_lt.1 hn)

theorem padded_nonneg (w : Nat) {n : Int} (hn : 0 ≤ n) :
    padded w n = List.replicate (w - (decimal n.natAbs).length) 48 ++ decimal n.natAbs :=
  if_neg (not_lt.2 hn)

theorem padded_digits (w : Nat) {n : Int} (hn : 0 ≤ n) : ∀ b ∈ padded w n, isDigit b = true := by
  intro b hb
  rw [padded_nonneg w hn, List.mem_append, List.mem_replicate] at hb
  rcases hb with ⟨-, rfl⟩ | hb
  · decide
  · exact decimal_digits _ b hb

theorem value_padded (w : Nat) {n : Int} (hn : 0 ≤ n) : valueFrom 0 (padded w n) = n.natAbs := by
  rw [padded_nonneg w hn, valueFrom_append, valueFrom_zeros, value_decimal]

theorem readDecimal_padded (w : Nat) {n : Int} (hn : 0 ≤ n) :
    readDecimal (padded w n) = some n.natAbs := by
  have hne : padded w n ≠ [] := by
    rw [padded_nonneg w hn]
    exact List.append_ne_nil_of_right_ne_nil _ (decimal_ne_nil _)
  rw [readDecimal_of hne (padded_digits w hn), value_padded w hn]

theorem padded_length {k : Nat} (hk : 0 < k) {n : Int} (hn : 0 ≤ n) (hlt : n < 10 ^ k) :
    (padded k n).length = k := by
  have habs : n.natAbs < 10 ^ k := by zify; rwa [abs_of_nonneg hn]
  have hlen := decimal_length habs hk
  rw [padded_nonneg k hn, List.length_append, List.length_replicate]
  omega

end WebServer.Message
