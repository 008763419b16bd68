import Loon.Number.Double
import Mathlib.Algebra.Order.Field.Power
import Mathlib.Algebra.Order.Ring.Rat
import Mathlib.Data.Nat.Bitwise
import Mathlib.Tactic.Linarith
import Mathlib.Tactic.Positivity
import Mathlib.Tactic.Ring

namespace Loon.Double

variable {x y : Double}

def magnitude (x : Double) : ℚ := x.mantissa * 2 ^ x.exponent

theorem fraction_lt (x : Double) : x.fraction < 2 ^ 52 := Nat.mod_lt _ (by decide)

theorem mantissa_lt (x : Double) : x.mantissa < 2 ^ 53 := by
  have hfraction := x.fraction_lt
  have hpow : Nat.pow 2 52 = 2 ^ 52 := rfl
  rw [mantissa]
  split <;> omega

theorem le_exponent (x : Double) : -1074 ≤ x.exponent := by
  rw [exponent]
  omega

theorem le_mantissa (h : x.exponent ≠ -1074) : 2 ^ 52 ≤ x.mantissa := by
  have hpow : Nat.pow 2 52 = 2 ^ 52 := rfl
  rw [exponent] at h
  rw [mantissa, if_neg (by omega)]
  omega

theorem toNat_bits (x : Double) :
    (x.bits.toNat : ℤ) =
      (if x.negative then 2 ^ 63 else 0) + ((x.exponent + 1074) * 2 ^ 52 + x.mantissa) := by
  have hlt : x.bits.toNat < 2 ^ 64 := x.bits.toNat_lt
  have hfield : x.exponentField = x.bits.toNat / 4503599627370496 % 2048 := rfl
  have hfraction : x.fraction = x.bits.toNat % 4503599627370496 := rfl
  have hpow : Nat.pow 2 52 = 4503599627370496 := rfl
  have hsign : x.negative = true ↔ 9223372036854775808 ≤ x.bits.toNat := decide_eq_true_iff
  simp only [hsign, exponent, mantissa]
  split <;> split <;> omega

theorem isFinite_of_lt (h : x.bits.toNat < infinity.bits.toNat) :
    x.negative = false ∧ x.isFinite = true := by
  have hinfinity : infinity.bits.toNat = 2047 * 4503599627370496 := rfl
  constructor
  · refine decide_eq_false ?_
    change ¬9223372036854775808 ≤ x.bits.toNat
    omega
  · have hfield : x.exponentField = x.bits.toNat / 4503599627370496 % 2048 := rfl
    rw [isFinite, bne_iff_ne]
    omega

theorem ext_parts (hsign : x.negative = y.negative) (hexponent : x.exponent = y.exponent)
    (hmantissa : x.mantissa = y.mantissa) : x = y := by
  have hx := x.toNat_bits
  rw [hsign, hexponent, hmantissa, ← y.toNat_bits] at hx
  obtain ⟨bits⟩ := x
  obtain ⟨bits'⟩ := y
  exact congrArg Double.mk (UInt64.toNat_inj.1 (by exact_mod_cast hx))

theorem two_zpow_pos (e : ℤ) : (0 : ℚ) < 2 ^ e := by positivity

theorem two_zpow_add (a b : ℤ) : (2 : ℚ) ^ (a + b) = 2 ^ a * 2 ^ b := zpow_add₀ two_ne_zero a b

theorem two_pow_53_mul (e : ℤ) : (2 : ℚ) ^ 53 * 2 ^ e = 2 ^ 52 * 2 ^ (e + 1) := by
  rw [two_zpow_add]
  ring

theorem exists_magnitude_eq {e : ℤ} (h : e ≤ x.exponent) :
    ∃ j : ℕ, x.magnitude = j * 2 ^ e ∧ (Even x.mantissa → Even j) := by
  refine ⟨x.mantissa * 2 ^ (x.exponent - e).toNat, ?_, fun heven => heven.mul_right _⟩
  have hexponent : x.exponent = (x.exponent - e).toNat + e := by omega
  rw [magnitude]
  nth_rewrite 1 [hexponent]
  rw [two_zpow_add, zpow_natCast]
  push_cast
  ring

theorem magnitude_lt {e : ℤ} (h : x.exponent < e) : x.magnitude < 2 ^ 52 * 2 ^ e := by
  have hmantissa : (x.mantissa : ℚ) < 2 ^ 53 := by exact_mod_cast x.mantissa_lt
  have hscale : (2 : ℚ) ^ (x.exponent + 1) ≤ 2 ^ e := zpow_le_zpow_right₀ one_le_two h
  calc x.magnitude = x.mantissa * 2 ^ x.exponent := rfl
    _ < 2 ^ 53 * 2 ^ x.exponent := mul_lt_mul_of_pos_right hmantissa (two_zpow_pos _)
    _ = 2 ^ 52 * 2 ^ (x.exponent + 1) := two_pow_53_mul _
    _ ≤ 2 ^ 52 * 2 ^ e := by gcongr

theorem exponent_eq_of_magnitude (h : x.magnitude = y.magnitude) : x.exponent = y.exponent := by
  by_contra hne
  wlog hlt : x.exponent < y.exponent generalizing x y
  · exact this h.symm (Ne.symm hne) (by omega)
  have hnormal : (2 ^ 52 : ℚ) ≤ y.mantissa := by
    have hle := x.le_exponent
    exact_mod_cast le_mantissa (x := y) (by omega)
  have hbelow := magnitude_lt hlt
  rw [h, magnitude] at hbelow
  exact absurd hnormal (not_le.2 (lt_of_mul_lt_mul_right hbelow (two_zpow_pos _).le))

theorem eq_of_magnitude (hsign : x.negative = y.negative) (h : x.magnitude = y.magnitude) : x = y := by
  have hexponent := exponent_eq_of_magnitude h
  refine ext_parts hsign hexponent ?_
  rw [magnitude, magnitude, hexponent] at h
  exact_mod_cast mul_right_cancel₀ (two_zpow_pos _).ne' h

theorem toNat_withSign (x : Double) :
    (x.withSign true).bits.toNat = 2 ^ 63 + x.bits.toNat % 2 ^ 63 := by
  have hor : 2 ^ 63 + x.bits.toNat % 2 ^ 63 = 2 ^ 63 ||| x.bits.toNat % 2 ^ 63 := by
    simpa using Nat.two_pow_add_eq_or_of_lt (Nat.mod_lt x.bits.toNat (Nat.two_pow_pos 63)) 1
  have hlt : x.bits.toNat < 2 ^ 64 := x.bits.toNat_lt
  have hbits : (x.withSign true).bits.toNat = x.bits.toNat ||| 2 ^ 63 := UInt64.toNat_or ..
  rw [hbits]
  rcases Nat.lt_or_ge x.bits.toNat (2 ^ 63) with hsign | hsign
  · rw [Nat.mod_eq_of_lt hsign] at hor ⊢
    rw [Nat.or_comm, hor]
  · have hsplit : x.bits.toNat = 2 ^ 63 + x.bits.toNat % 2 ^ 63 := by omega
    calc x.bits.toNat ||| 2 ^ 63 = 2 ^ 63 ||| (2 ^ 63 ||| x.bits.toNat % 2 ^ 63) := by
          rw [← hor, ← hsplit, Nat.or_comm]
      _ = 2 ^ 63 + x.bits.toNat % 2 ^ 63 := by rw [← Nat.or_assoc, Nat.or_self, hor]

@[simp] theorem withSign_false (x : Double) : x.withSign false = x := rfl

@[simp] theorem exponentField_withSign (negative : Bool) (x : Double) :
    (x.withSign negative).exponentField = x.exponentField := by
  cases negative with
  | false => rfl
  | true =>
    change (x.withSign true).bits.toNat / 4503599627370496 % 2048 =
      x.bits.toNat / 4503599627370496 % 2048
    rw [toNat_withSign]
    omega

@[simp] theorem fraction_withSign (negative : Bool) (x : Double) :
    (x.withSign negative).fraction = x.fraction := by
  cases negative with
  | false => rfl
  | true =>
    change (x.withSign true).bits.toNat % 4503599627370496 = x.bits.toNat % 4503599627370496
    rw [toNat_withSign]
    omega

@[simp] theorem isFinite_withSign (negative : Bool) (x : Double) :
    (x.withSign negative).isFinite = x.isFinite := by
  simp [isFinite]

@[simp] theorem mantissa_withSign (negative : Bool) (x : Double) :
    (x.withSign negative).mantissa = x.mantissa := by
  simp [mantissa]

@[simp] theorem exponent_withSign (negative : Bool) (x : Double) :
    (x.withSign negative).exponent = x.exponent := by
  simp [exponent]

@[simp] theorem magnitude_withSign (negative : Bool) (x : Double) :
    (x.withSign negative).magnitude = x.magnitude := by
  simp [magnitude]

theorem negative_withSign {negative : Bool} (h : x.negative = false) :
    (x.withSign negative).negative = negative := by
  cases negative with
  | false => exact h
  | true =>
    refine decide_eq_true ?_
    rw [toNat_withSign]
    exact Nat.le_add_right ..

end Loon.Double
