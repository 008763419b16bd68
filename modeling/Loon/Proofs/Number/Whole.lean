import Loon.Proofs.Number.Exact
import Mathlib.Data.Rat.Floor

namespace Loon.Double

variable {x y : Double} {n : ℤ}

def value (x : Double) : ℚ := if x.negative then -x.magnitude else x.magnitude

/-- Doubles of the same exact value; what has none is the same as itself only. -/
def SameValue (x y : Double) : Prop := x = y ∨ x.isFinite = true ∧ y.isFinite = true ∧ x.value = y.value

def towardZero (q : ℚ) : ℤ := if q < 0 then ⌈q⌉ else ⌊q⌋

/-- The conversion to sixty-four bits with a sign. Fractional parts are cut off, what is out of range goes to
the nearer bound, and what is no number to zero. -/
def toInt64 (x : Double) : ℤ :=
  if x.isNaN then 0
  else if x.isFinite then max (-2 ^ 63) (min (towardZero x.value) (2 ^ 63 - 1))
  else if x.negative then -2 ^ 63 else 2 ^ 63 - 1

theorem magnitude_nonneg (x : Double) : 0 ≤ x.magnitude :=
  mul_nonneg (Nat.cast_nonneg _) (two_zpow_pos _).le

theorem abs_value (x : Double) : |x.value| = x.magnitude := by
  rw [value]
  split
  · rw [abs_neg, abs_of_nonneg x.magnitude_nonneg]
  · rw [abs_of_nonneg x.magnitude_nonneg]

theorem value_eq_signed {m : ℕ} (h : x.magnitude = m) : x.value = signed x.negative m := by
  rw [value, signed, h]
  split <;> push_cast <;> rfl

theorem magnitude_eq_zero : x.magnitude = 0 ↔ x.mantissa = 0 := by
  rw [magnitude, mul_eq_zero, or_iff_left (two_zpow_pos _).ne', Nat.cast_eq_zero]

theorem isZero_iff : x.isZero = true ↔ x.isFinite = true ∧ x.value = 0 := by
  have hmantissa : x.value = 0 ↔ x.mantissa = 0 := by
    rw [← abs_eq_zero, abs_value, magnitude_eq_zero]
  have hpow : Nat.pow 2 52 = 2 ^ 52 := rfl
  rw [hmantissa, isZero, isFinite, mantissa, Bool.and_eq_true, beq_iff_eq, beq_iff_eq, bne_iff_ne]
  split <;> omega

theorem negative_eq (h : x.value ≠ 0) : x.negative = decide (x.value < 0) := by
  have hpos : 0 < x.magnitude := x.abs_value ▸ abs_pos.2 h
  cases hnegative : x.negative with
  | false =>
    have hvalue : x.value = x.magnitude := by simp [value, hnegative]
    rw [hvalue, eq_comm, decide_eq_false_iff_not, not_lt]
    exact hpos.le
  | true =>
    have hvalue : x.value = -x.magnitude := by simp [value, hnegative]
    rw [hvalue, eq_comm, decide_eq_true_iff]
    exact neg_neg_of_pos hpos

theorem eq_of_value (h : x.value = y.value) (hne : x.value ≠ 0) : x = y := by
  have hsign : x.negative = y.negative := by rw [negative_eq hne, h, negative_eq (h ▸ hne)]
  exact eq_of_magnitude hsign (by rw [← abs_value, h, abs_value])

theorem sameValue_iff : x.SameValue y ↔ x = y ∨ x.isZero = true ∧ y.isZero = true := by
  rw [SameValue, isZero_iff, isZero_iff]
  constructor
  · rintro (rfl | ⟨hx, hy, h⟩)
    · exact .inl rfl
    · by_cases hzero : x.value = 0
      · exact .inr ⟨⟨hx, hzero⟩, hy, h ▸ hzero⟩
      · exact .inl (eq_of_value h hzero)
  · rintro (rfl | ⟨⟨hx, hx'⟩, hy, hy'⟩)
    · exact .inl rfl
    · exact .inr ⟨hx, hy, hx'.trans hy'.symm⟩

theorem wholeMagnitude?_eq_some {m : ℕ} :
    x.wholeMagnitude? = some m ↔ x.isFinite = true ∧ x.magnitude = m := by
  rw [wholeMagnitude?, magnitude]
  split
  next hfinite =>
    rw [and_iff_right hfinite]
    cases x.exponent with
    | ofNat e =>
      have hscale : (x.mantissa : ℚ) * 2 ^ Int.ofNat e = (x.mantissa * 2 ^ e : ℕ) := by
        rw [Int.ofNat_eq_natCast, zpow_natCast]
        push_cast
        rfl
      rw [hscale, Nat.cast_inj]
      exact Option.some_inj
    | negSucc e =>
      have hpos : 0 < 2 ^ (e + 1) := Nat.two_pow_pos _
      have hscale : (x.mantissa : ℚ) * 2 ^ Int.negSucc e = m ↔ x.mantissa = m * 2 ^ (e + 1) := by
        rw [zpow_negSucc, ← div_eq_mul_inv, div_eq_iff (by positivity)]
        exact_mod_cast Iff.rfl
      rw [hscale]
      change (if x.mantissa % 2 ^ (e + 1) = 0 then some (x.mantissa / 2 ^ (e + 1)) else none) = some m ↔ _
      rw [Option.ite_none_right_eq_some, Option.some_inj]
      constructor
      · rintro ⟨hmod, rfl⟩
        exact (Nat.div_mul_cancel (Nat.dvd_of_mod_eq_zero hmod)).symm
      · intro heq
        rw [heq]
        exact ⟨Nat.mul_mod_left .., Nat.mul_div_cancel _ hpos⟩
  next hinfinite => simp [hinfinite]

theorem toInteger?_eq_some :
    x.toInteger? = some n ↔ x.isFinite = true ∧ x.value = n ∧ |x.value| ≤ 2 ^ 53 - 1 := by
  have hbound (m : ℕ) : (m : ℚ) ≤ 2 ^ 53 - 1 ↔ m ≤ Nat.pow 2 53 - 1 := by
    rw [← Nat.cast_le (α := ℚ)]
    norm_num
  constructor
  · intro h
    rw [toInteger?] at h
    split at h
    next m hm =>
      obtain ⟨hfinite, hmagnitude⟩ := wholeMagnitude?_eq_some.1 hm
      obtain ⟨hle, hn⟩ := Option.ite_none_right_eq_some.1 h
      rw [abs_value, hmagnitude, hbound, value_eq_signed hmagnitude, Option.some.inj hn]
      exact ⟨hfinite, rfl, hle⟩
    · cases h
  · rintro ⟨hfinite, hvalue, hle⟩
    have hmagnitude : x.magnitude = n.natAbs := by
      rw [← abs_value, hvalue, ← Int.cast_abs, Int.abs_eq_natAbs, Int.cast_natCast]
    have hsigned : signed x.negative n.natAbs = n := by
      rw [value_eq_signed hmagnitude] at hvalue
      exact_mod_cast hvalue
    rw [abs_value, hmagnitude, hbound] at hle
    rw [toInteger?, wholeMagnitude?_eq_some.2 ⟨hfinite, hmagnitude⟩]
    dsimp only
    rw [if_pos hle, hsigned]

theorem towardZero_intCast (n : ℤ) : towardZero n = n := by
  rw [towardZero, Int.ceil_intCast, Int.floor_intCast, ite_self]

theorem toInt64_of_toInteger? (h : x.toInteger? = some n) : x.toInt64 = n := by
  obtain ⟨hfinite, hvalue, hle⟩ := toInteger?_eq_some.1 h
  have hnumber : x.isNaN = false := by
    rw [isFinite, bne_iff_ne] at hfinite
    simp [isNaN, hfinite]
  have hrange : -(2 ^ 53 - 1) ≤ n ∧ n ≤ 2 ^ 53 - 1 := by
    rw [hvalue, abs_le] at hle
    exact_mod_cast hle
  rw [toInt64, hnumber, hfinite, hvalue, towardZero_intCast]
  simp only [Bool.false_eq_true, if_false, if_true]
  omega

end Loon.Double
