import WebServer.Decimals
import WebServer.RequestHandle

namespace WebServer.Numerals

open Message
open RequestHandle (isspace)
open ServerLog (int32)

variable {n : Int} {rest : Bytes}

/-- What `strtol` makes of a number that a `long` may not hold. -/
def clamp (n : Int) : Int := max (-2 ^ 63) (min n (2 ^ 63 - 1))

/-- A `%d` of `sscanf`: white space, a sign and digits. The `long` is stored in an `int`. -/
def scanInt (s : Bytes) : Option Int :=
  let s := s.dropWhile isspace
  let minus := s.head? = some 45
  let ds := (if minus ∨ s.head? = some 43 then s.tail else s).takeWhile isDigit
  if ds = [] then none
  else some (int32 (clamp (if minus then -(valueFrom 0 ds : Int) else valueFrom 0 ds)))

def atoi (s : Bytes) : Int := (scanInt s).getD 0

theorem int32_range (n : Int) : -2 ^ 31 ≤ int32 n ∧ int32 n < 2 ^ 31 := by
  rw [int32, Int.bmod_def]
  omega

theorem int32_of_range (hlow : -2 ^ 31 ≤ n) (hhigh : n < 2 ^ 31) : int32 n = n := by
  rw [int32, Int.bmod_def]
  omega

theorem clamp_of_range (hlow : -2 ^ 31 ≤ n) (hhigh : n < 2 ^ 31) : clamp n = n := by
  rw [clamp]
  omega

theorem takeWhile_digits {ds : Bytes} (hd : ∀ b ∈ ds, isDigit b = true)
    (hr : ∀ b ∈ rest.head?, isDigit b = false) : (ds ++ rest).takeWhile isDigit = ds := by
  rw [List.takeWhile_append_of_pos hd]
  cases rest with
  | nil => simp
  | cons b rest =>
      rw [List.takeWhile_cons_of_neg (by simp [hr b rfl]), List.append_nil]

theorem digit_not_space {b : UInt8} (h : isDigit b = true) : isspace b = false := by
  rw [isDigit, Bool.and_eq_true_iff, decide_eq_true_eq] at h
  have hlow : 48 ≤ b.toNat := UInt8.le_iff_toNat_le.1 h.1
  have h32 : b ≠ 32 := by
    rintro rfl
    exact absurd hlow (by decide)
  have h13 : ¬ b ≤ 13 := fun h13 => by
    have h13 : b.toNat ≤ 13 := UInt8.le_iff_toNat_le.1 h13
    omega
  simp [isspace, h32, h13]

theorem scanInt_signed (hlow : -2 ^ 31 ≤ n) (hhigh : n < 2 ^ 31) {space : Bytes}
    (hs : ∀ b ∈ space, isspace b = true) (hr : ∀ b ∈ rest.head?, isDigit b = false) :
    scanInt (space ++ signed n ++ rest) = some n := by
  obtain ⟨d, ds, hdec⟩ := List.exists_cons_of_ne_nil (decimal_ne_nil n.natAbs)
  have hdigits := decimal_digits n.natAbs
  have htake := takeWhile_digits hdigits hr
  have hvalue := value_decimal n.natAbs
  have hint : int32 (clamp n) = n := by rw [clamp_of_range hlow hhigh, int32_of_range hlow hhigh]
  have hdig : isDigit d = true := hdigits d (by rw [hdec]; simp)
  have hdrop {b : UInt8} {t : Bytes} (hb : isspace b = false) :
      (space ++ b :: t).dropWhile isspace = b :: t := by
    rw [List.dropWhile_append_of_pos hs, List.dropWhile_cons_of_neg (by simp [hb])]
  rw [scanInt, signed]
  split
  · next hneg =>
    rw [List.append_assoc, List.cons_append, hdrop (by decide)]
    simp only [List.head?_cons, true_or, if_true, List.tail_cons, htake, hvalue]
    rw [if_neg (decimal_ne_nil _)]
    have habs : -(n.natAbs : Int) = n := by omega
    rw [habs, hint]
  · next hneg =>
    rw [List.append_assoc, hdec, List.cons_append, hdrop (digit_not_space hdig)]
    have hminus : d ≠ 45 := by
      rintro rfl
      exact absurd hdig (by decide)
    have hplus : d ≠ 43 := by
      rintro rfl
      exact absurd hdig (by decide)
    rw [hdec] at htake hvalue
    rw [List.cons_append] at htake
    simp only [List.head?_cons, Option.some.injEq, hminus, hplus, or_self, if_false, htake, hvalue]
    rw [if_neg (by simp)]
    have habs : (n.natAbs : Int) = n := by omega
    rw [habs, hint]

end WebServer.Numerals
