import WebServer.Decimals
import WebServer.RequestQueue

namespace WebServer.Timevals

open Message
open RequestQueue (Timeval timersub)

variable {a b t : Timeval}

def Proper (t : Timeval) : Prop := 0 ≤ t.usec ∧ t.usec < 1000000

instance (t : Timeval) : Decidable (Proper t) := by unfold Proper; infer_instance

def micros (t : Timeval) : Int := t.sec * 1000000 + t.usec

/-- `timeradd` of `sys/time.h`. -/
def timeradd (a b : Timeval) : Timeval :=
  if 1000000 ≤ a.usec + b.usec then ⟨a.sec + b.sec + 1, a.usec + b.usec - 1000000⟩
  else ⟨a.sec + b.sec, a.usec + b.usec⟩

theorem micros_timeradd (a b : Timeval) : micros (timeradd a b) = micros a + micros b := by
  rw [timeradd]
  split <;> simp only [micros] <;> ring

theorem micros_timersub (a b : Timeval) : micros (timersub a b) = micros a - micros b := by
  rw [timersub]
  split <;> simp only [micros] <;> ring

theorem timeradd_proper (ha : Proper a) (hb : Proper b) : Proper (timeradd a b) := by
  obtain ⟨ha₀, ha₁⟩ := ha
  obtain ⟨hb₀, hb₁⟩ := hb
  rw [timeradd]
  split <;> constructor <;> simp only <;> omega

theorem timersub_proper (ha : Proper a) (hb : Proper b) : Proper (timersub a b) := by
  obtain ⟨ha₀, ha₁⟩ := ha
  obtain ⟨hb₀, hb₁⟩ := hb
  rw [timersub]
  split <;> constructor <;> simp only <;> omega

theorem Proper.eq_of_micros (ha : Proper a) (hb : Proper b) (h : micros a = micros b) : a = b := by
  obtain ⟨sec, usec⟩ := a
  obtain ⟨sec', usec'⟩ := b
  obtain ⟨ha₀, ha₁⟩ := ha
  obtain ⟨hb₀, hb₁⟩ := hb
  simp only [micros] at *
  obtain rfl : sec = sec' := by omega
  obtain rfl : usec = usec' := by omega
  rfl

theorem timeradd_timersub (ha : Proper a) (hb : Proper b) : timeradd b (timersub a b) = a := by
  apply (timeradd_proper hb (timersub_proper ha hb)).eq_of_micros ha
  rw [micros_timeradd, micros_timersub]
  ring

theorem Proper.sec_nonneg (ht : Proper t) (h : 0 ≤ micros t) : 0 ≤ t.sec := by
  obtain ⟨h₀, h₁⟩ := ht
  rw [micros] at h
  omega

def written (t : Timeval) : Bytes := signed t.sec ++ str "." ++ padded 6 t.usec

def dot : UInt8 := 46

def readTime (bs : Bytes) : Option Timeval :=
  (readSigned (bs.takeWhile fun b => decide (b ≠ dot))).bind fun sec =>
    (readDecimal (bs.dropWhile fun b => decide (b ≠ dot)).tail).map fun usec : Nat => ⟨sec, usec⟩

theorem digit_ne_dot {b : UInt8} (h : isDigit b = true) : b ≠ dot := by
  rintro rfl
  exact absurd h (by decide)

theorem signed_dot (n : Int) : ∀ b ∈ signed n, b ≠ dot := by
  intro b hb
  rw [signed] at hb
  split at hb
  · rcases List.mem_cons.1 hb with rfl | hb
    · decide
    · exact digit_ne_dot (decimal_digits _ b hb)
  · exact digit_ne_dot (decimal_digits _ b hb)

theorem readTime_written (ht : 0 ≤ t.usec) : readTime (written t) = some t := by
  have hwritten : written t = signed t.sec ++ dot :: padded 6 t.usec := by
    rw [written, List.append_assoc]
    rfl
  have hsec : ∀ b ∈ signed t.sec, decide (b ≠ dot) = true := fun b hb =>
    decide_eq_true (signed_dot _ b hb)
  rw [readTime, hwritten, List.takeWhile_append_of_pos hsec, List.dropWhile_append_of_pos hsec,
    List.takeWhile_cons_of_neg (by simp), List.dropWhile_cons_of_neg (by simp), List.append_nil,
    List.tail_cons, readSigned_signed, readDecimal_padded 6 ht]
  simp only [Option.bind_some, Option.map_some, Int.natAbs_of_nonneg ht]

theorem readDecimal_written (ht : Proper t) (hs : 0 ≤ t.sec) :
    readDecimal ((written t).filter fun b => decide (b ≠ dot)) = some (micros t).toNat := by
  have hsigned : signed t.sec = decimal t.sec.natAbs := if_neg (not_lt.2 hs)
  have hlen : (padded 6 t.usec).length = 6 := padded_length (by decide) ht.1 ht.2
  have hsec := decimal_digits t.sec.natAbs
  have husec := padded_digits 6 ht.1
  have hkeep {bs : Bytes} (h : ∀ b ∈ bs, isDigit b = true) :
      bs.filter (fun b => decide (b ≠ dot)) = bs :=
    List.filter_eq_self.2 fun b hb => decide_eq_true (digit_ne_dot (h b hb))
  have hdot : (str ".").filter (fun b => decide (b ≠ dot)) = [] := by decide
  rw [written, hsigned, List.filter_append, List.filter_append, hkeep hsec, hkeep husec, hdot,
    List.append_nil, readDecimal_of (by simp [decimal_ne_nil])
      fun b hb => (List.mem_append.1 hb).elim (hsec b) (husec b),
    valueFrom_append, valueFrom_eq, value_decimal, value_padded 6 ht.1, hlen]
  have h₀ := ht.1
  congr 1
  rw [micros]
  omega

end WebServer.Timevals
