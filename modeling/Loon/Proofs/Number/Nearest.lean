import Loon.Number.Decimal
import Loon.Proofs.Number.Exact
import Mathlib.Algebra.Order.Field.Basic

/-!
Rounding to the nearest double, half-way cases to the even mantissa. A number between two powers of two is
rounded on the grid of the doubles there; below it all doubles are farther, above it they are on the
same grid.
-/

namespace Loon.Double

variable {x y : Double} {q : ℚ} {e : ℤ} {m : ℕ}

/-- Half a unit beyond the greatest finite double: half-way to where the next one would be. -/
def overflow : ℚ := (2 ^ 53 - 1 / 2) * 2 ^ (971 : ℤ)

/-- That `x` is what the magnitude `q` rounds to, with the given sign. -/
inductive Rounds (negative : Bool) (q : ℚ) (x : Double) : Prop
  | finite (range : q < overflow) (finite : x.isFinite = true) (sign : x.negative = negative)
      (nearest : ∀ y : Double, y.isFinite = true → |x.magnitude - q| ≤ |y.magnitude - q|)
      (even : ∀ y : Double, y.isFinite = true → |x.magnitude - q| = |y.magnitude - q| →
        y.magnitude = x.magnitude ∨ Even x.mantissa)
  | infinite (range : overflow ≤ q) (eq : x = infinity.withSign negative)

theorem Rounds.withSign (h : Rounds false q x) (negative : Bool) :
    Rounds negative q (x.withSign negative) := by
  cases h with
  | finite range finite sign nearest even =>
    refine .finite range ?_ (negative_withSign sign) ?_ ?_
    · rw [isFinite_withSign, finite]
    · simpa using nearest
    · simpa using even
  | infinite range eq => exact .infinite range (by rw [eq, withSign_false])

section Grid

variable {t : ℚ} {j : ℕ}

theorem half_le_of_ne (h : |(m : ℚ) - t| ≤ 1 / 2) (hne : j ≠ m) : 1 / 2 ≤ |(j : ℚ) - t| := by
  have hgap : (1 : ℚ) ≤ |(j : ℚ) - m| := by
    have hint : 1 ≤ |(j : ℤ) - m| := Int.one_le_abs (by omega)
    exact_mod_cast hint
  have htriangle : |(j : ℚ) - m| ≤ |(j : ℚ) - t| + |(m : ℚ) - t| := by
    rw [abs_sub_comm (m : ℚ) t]
    exact abs_sub_le ..
  linarith

theorem le_of_half (h : |(m : ℚ) - t| ≤ 1 / 2) (j : ℕ) : |(m : ℚ) - t| ≤ |(j : ℚ) - t| := by
  rcases eq_or_ne j m with rfl | hne
  · exact le_rfl
  · exact h.trans (half_le_of_ne h hne)

theorem even_iff_of_half (hm : |(m : ℚ) - t| ≤ 1 / 2) (hj : |(j : ℚ) - t| ≤ 1 / 2) (hne : j ≠ m) :
    Even m ↔ ¬Even j := by
  rw [abs_le] at hm hj
  have hle : j ≤ m + 1 := by
    have hcast : (j : ℚ) ≤ m + 1 := by linarith
    exact_mod_cast hcast
  have hge : m ≤ j + 1 := by
    have hcast : (m : ℚ) ≤ j + 1 := by linarith
    exact_mod_cast hcast
  have hsucc : j = m + 1 ∨ m = j + 1 := by omega
  rcases hsucc with rfl | rfl <;> simp [Nat.even_add_one]

theorem div_le_half (num : ℕ) {den : ℕ} (hden : den ≠ 0) :
    (num : ℚ) / den ≤ 1 / 2 ↔ 2 * num ≤ den := by
  have hpos : (0 : ℚ) < den := by positivity
  rw [div_le_div_iff₀ hpos two_pos, one_mul, mul_comm]
  exact_mod_cast Iff.rfl

theorem half_le_div (num : ℕ) {den : ℕ} (hden : den ≠ 0) :
    1 / 2 ≤ (num : ℚ) / den ↔ den ≤ 2 * num := by
  have hpos : (0 : ℚ) < den := by positivity
  rw [div_le_div_iff₀ two_pos hpos, one_mul, mul_comm]
  exact_mod_cast Iff.rfl

theorem div_eq_add_mod (num : ℕ) {den : ℕ} (hden : den ≠ 0) :
    (num : ℚ) / den = (num / den : ℕ) + (num % den : ℕ) / den := by
  have hpos : (den : ℚ) ≠ 0 := by positivity
  rw [eq_comm, ← mul_right_inj' hpos, mul_add, mul_div_cancel₀ _ hpos, mul_div_cancel₀ _ hpos]
  exact_mod_cast Nat.div_add_mod num den

theorem roundEven_half (num : ℕ) {den : ℕ} (hden : den ≠ 0) :
    |(roundEven num den : ℚ) - num / den| ≤ 1 / 2 ∧
      (|(roundEven num den : ℚ) - num / den| = 1 / 2 → Even (roundEven num den)) := by
  have hlow := div_le_half (num % den) hden
  have hhigh := half_le_div (num % den) hden
  rw [div_eq_add_mod num hden]
  unfold roundEven
  dsimp only
  split
  next h =>
    rw [sub_add_cancel_left, abs_neg, abs_of_nonneg (by positivity)]
    refine ⟨hlow.2 (by omega), fun heq => ?_⟩
    have htie := hhigh.1 heq.ge
    exact Nat.even_iff.2 (by omega)
  next h =>
    have hone : ((num % den : ℕ) : ℚ) / den ≤ 1 := by
      rw [div_le_one (by positivity)]
      exact_mod_cast (Nat.mod_lt _ (Nat.pos_of_ne_zero hden)).le
    have hhalf := hhigh.2 (by omega)
    have hdist : ((num / den + 1 : ℕ) : ℚ) - ((num / den : ℕ) + (num % den : ℕ) / den) =
        1 - (num % den : ℕ) / den := by
      push_cast
      ring
    rw [hdist, abs_of_nonneg (by linarith)]
    refine ⟨by linarith, fun heq => ?_⟩
    have htie := hlow.1 (by linarith)
    rw [Nat.even_add_one, Nat.not_even_iff]
    omega

end Grid

/-- `m` is the rounded mantissa of `q` at the exponent `e`, which is the one of the doubles around `q`. -/
structure Scaled (q : ℚ) (e : ℤ) (m : ℕ) : Prop where
  least : -1074 ≤ e
  lower : e ≠ -1074 → 2 ^ 52 ≤ q / 2 ^ e
  upper : q / 2 ^ e < 2 ^ 53
  half : |(m : ℚ) - q / 2 ^ e| ≤ 1 / 2
  even : |(m : ℚ) - q / 2 ^ e| = 1 / 2 → Even m

theorem dist_scaled (j : ℕ) (q : ℚ) (e : ℤ) :
    |(j : ℚ) * 2 ^ e - q| = |(j : ℚ) - q / 2 ^ e| * 2 ^ e := by
  have hpos := two_zpow_pos e
  calc |(j : ℚ) * 2 ^ e - q| = |((j : ℚ) - q / 2 ^ e) * 2 ^ e| := by
        rw [sub_mul, div_mul_cancel₀ _ hpos.ne']
    _ = |(j : ℚ) - q / 2 ^ e| * 2 ^ e := by rw [abs_mul, abs_of_pos hpos]

namespace Scaled

theorem le_grid (h : Scaled q e m) (j : ℕ) : |(m : ℚ) * 2 ^ e - q| ≤ |(j : ℚ) * 2 ^ e - q| := by
  rw [dist_scaled, dist_scaled]
  exact mul_le_mul_of_nonneg_right (le_of_half h.half j) (two_zpow_pos e).le

theorem even_of_grid (h : Scaled q e m) {j : ℕ} (hne : j ≠ m)
    (heq : |(m : ℚ) * 2 ^ e - q| = |(j : ℚ) * 2 ^ e - q|) : Even m ∧ ¬Even j := by
  rw [dist_scaled, dist_scaled] at heq
  have hdist := mul_right_cancel₀ (two_zpow_pos e).ne' heq
  have heven : Even m := h.even (le_antisymm h.half (hdist ▸ half_le_of_ne h.half hne))
  exact ⟨heven, (even_iff_of_half h.half (hdist ▸ h.half) hne).1 heven⟩

theorem lt_of_exponent_lt (h : Scaled q e m) (hlt : y.exponent < e) :
    |(m : ℚ) * 2 ^ e - q| < |y.magnitude - q| := by
  have hle := y.le_exponent
  have hlower : 2 ^ 52 * 2 ^ e ≤ q := (le_div_iff₀ (two_zpow_pos e)).1 (h.lower (by omega))
  have hbelow := magnitude_lt hlt
  calc |(m : ℚ) * 2 ^ e - q| ≤ |((2 ^ 52 : ℕ) : ℚ) * 2 ^ e - q| := h.le_grid _
    _ = q - 2 ^ 52 * 2 ^ e := by
      rw [Nat.cast_pow, Nat.cast_ofNat, abs_sub_comm, abs_of_nonneg (by linarith)]
    _ < q - y.magnitude := by linarith
    _ = |y.magnitude - q| := by rw [abs_sub_comm, abs_of_nonneg (by linarith)]

theorem le (h : Scaled q e m) (y : Double) : |(m : ℚ) * 2 ^ e - q| ≤ |y.magnitude - q| := by
  rcases lt_or_ge y.exponent e with hlt | hge
  · exact (h.lt_of_exponent_lt hlt).le
  · obtain ⟨j, hj, -⟩ := exists_magnitude_eq hge
    rw [hj]
    exact h.le_grid j

theorem even_of_eq (h : Scaled q e m) (heq : |(m : ℚ) * 2 ^ e - q| = |y.magnitude - q|) :
    y.magnitude = m * 2 ^ e ∨ (Even m ∧ ¬Even y.mantissa) := by
  rcases lt_or_ge y.exponent e with hlt | hge
  · exact absurd heq (h.lt_of_exponent_lt hlt).ne
  · obtain ⟨j, hj, heven⟩ := exists_magnitude_eq hge
    rcases eq_or_ne j m with rfl | hne
    · exact .inl hj
    · obtain ⟨hm, hodd⟩ := h.even_of_grid hne (hj ▸ heq)
      exact .inr ⟨hm, fun hy => hodd (heven hy)⟩

theorem rounds (h : Scaled q e m) (range : q < overflow) (finite : x.isFinite = true)
    (hx : x.magnitude = m * 2 ^ e) (heven : Even m → Even x.mantissa) :
    Rounds x.negative q x := by
  refine .finite range finite rfl (fun y _ => hx ▸ h.le y) fun y _ heq => ?_
  rcases h.even_of_eq (hx ▸ heq) with hy | ⟨hm, -⟩
  · exact .inl (hy.trans hx.symm)
  · exact .inr (heven hm)

theorem le_mantissa (h : Scaled q e m) (he : e ≠ -1074) : 2 ^ 52 ≤ m := by
  have hhalf := (abs_le.1 h.half).1
  have hlower := h.lower he
  have hcast : ((2 ^ 52 : ℕ) : ℚ) < m + 1 := by
    push_cast
    linarith
  exact Nat.lt_succ_iff.1 (by exact_mod_cast hcast)

theorem mantissa_le (h : Scaled q e m) : m ≤ 2 ^ 53 := by
  have hhalf := (abs_le.1 h.half).2
  have hupper := h.upper
  have hcast : (m : ℚ) < (2 ^ 53 + 1 : ℕ) := by
    push_cast
    linarith
  exact Nat.lt_succ_iff.1 (by exact_mod_cast hcast)

theorem lt_overflow_greatest (h : Scaled q 971 m) : q < overflow ↔ m < 2 ^ 53 := by
  have hhalf := abs_le.1 h.half
  rw [overflow, ← div_lt_iff₀ (two_zpow_pos 971)]
  constructor
  · intro hlt
    by_contra hge
    have hm : (2 ^ 53 : ℚ) ≤ m := by exact_mod_cast not_lt.1 hge
    linarith
  · intro hlt
    have hm : (m : ℚ) + 1 ≤ 2 ^ 53 := by exact_mod_cast hlt
    refine lt_of_le_of_ne (by linarith) fun heq => ?_
    -- The greatest mantissa is odd, so the point half a unit beyond it is rounded up.
    have hmax : (m : ℚ) = (2 ^ 53 - 1 : ℕ) := by
      push_cast
      linarith
    have hodd := h.even (by rw [heq, hmax]; norm_num)
    rw [Nat.cast_inj.1 hmax] at hodd
    exact absurd hodd (by decide)

theorem lt_overflow_of_lt (h : Scaled q e m) (hlt : e < 971) : q < overflow := by
  have hscale : (2 : ℚ) ^ (e + 1) ≤ 2 ^ (971 : ℤ) := zpow_le_zpow_right₀ one_le_two hlt
  calc q < 2 ^ 53 * 2 ^ e := (div_lt_iff₀ (two_zpow_pos e)).1 h.upper
    _ = 2 ^ 52 * 2 ^ (e + 1) := two_pow_53_mul e
    _ ≤ 2 ^ 52 * 2 ^ (971 : ℤ) := by gcongr
    _ < overflow := mul_lt_mul_of_pos_right (by norm_num) (two_zpow_pos 971)

theorem overflow_le_of_lt (h : Scaled q e m) (hlt : 971 < e) : overflow ≤ q := by
  have hscale : (2 : ℚ) ^ (971 + 1 : ℤ) ≤ 2 ^ e := zpow_le_zpow_right₀ one_le_two hlt
  calc overflow ≤ 2 ^ 53 * 2 ^ (971 : ℤ) :=
        mul_le_mul_of_nonneg_right (by norm_num) (two_zpow_pos 971).le
    _ = 2 ^ 52 * 2 ^ (971 + 1 : ℤ) := two_pow_53_mul 971
    _ ≤ 2 ^ 52 * 2 ^ e := by gcongr
    _ ≤ q := (le_div_iff₀ (two_zpow_pos e)).1 (h.lower (by omega))

theorem lt_overflow_iff (h : Scaled q e m) :
    q < overflow ↔ (e + 1074).toNat * 2 ^ 52 + m < infinity.bits.toNat := by
  have hinfinity : infinity.bits.toNat = 2047 * 2 ^ 52 := rfl
  have hleast := h.least
  have hle := h.mantissa_le
  rw [hinfinity]
  rcases lt_trichotomy e 971 with hlt | rfl | hgt
  · simp only [h.lt_overflow_of_lt hlt, true_iff]
    omega
  · rw [h.lt_overflow_greatest]
    omega
  · have hnormal := h.le_mantissa (by omega)
    simp only [not_lt.2 (h.overflow_le_of_lt hgt), false_iff]
    omega

theorem mk_bits (h : Scaled q e m) (range : q < overflow)
    (hx : x = ⟨UInt64.ofNat ((e + 1074).toNat * 2 ^ 52 + m)⟩) :
    x.negative = false ∧ x.isFinite = true ∧ x.magnitude = m * 2 ^ e ∧ (Even m → Even x.mantissa) := by
  have hlt := h.lt_overflow_iff.1 range
  have hnat : x.bits.toNat = (e + 1074).toNat * 2 ^ 52 + m := by
    rw [hx]
    exact UInt64.toNat_ofNat_of_lt' (hlt.trans (UInt64.toNat_lt _))
  obtain ⟨hsign, hfinite⟩ := isFinite_of_lt (hnat ▸ hlt)
  refine ⟨hsign, hfinite, ?_⟩
  have hparts := x.toNat_bits
  rw [hnat, hsign, if_neg Bool.false_ne_true] at hparts
  have hmantissa := x.mantissa_lt
  have hnormal := x.le_mantissa
  have hexponent := x.le_exponent
  have hm := h.mantissa_le
  have hleast := h.least
  have hlow := h.le_mantissa
  -- A mantissa rounded up to the next power of two moves to the next exponent.
  have hcases : (x.exponent = e ∧ x.mantissa = m) ∨
      (x.exponent = e + 1 ∧ x.mantissa = 2 ^ 52 ∧ m = 2 ^ 53) := by omega
  rw [magnitude]
  rcases hcases with ⟨hexp, hman⟩ | ⟨hexp, hman, rfl⟩
  · rw [hexp, hman]
    exact ⟨rfl, id⟩
  · rw [hexp, hman, two_zpow_add]
    refine ⟨?_, fun _ => by decide⟩
    push_cast
    ring

theorem rounds_bits (h : Scaled q e m) {bits : ℕ} (hbits : bits = (e + 1074).toNat * 2 ^ 52 + m) :
    Rounds false q (if bits < infinity.bits.toNat then ⟨UInt64.ofNat bits⟩ else infinity) := by
  subst hbits
  split
  next hlt =>
    have range := h.lt_overflow_iff.2 hlt
    obtain ⟨hsign, hfinite, hmagnitude, heven⟩ := h.mk_bits range rfl
    exact hsign ▸ h.rounds range hfinite hmagnitude heven
  next hge => exact .infinite (not_lt.1 fun hlt => hge (h.lt_overflow_iff.1 hlt)) rfl

theorem magnitude_eq (h : Scaled q e m) (range : q < overflow)
    (nearest : ∀ y : Double, y.isFinite = true → |x.magnitude - q| ≤ |y.magnitude - q|)
    (even : ∀ y : Double, y.isFinite = true → |x.magnitude - q| = |y.magnitude - q| →
      y.magnitude = x.magnitude ∨ Even x.mantissa) :
    x.magnitude = m * 2 ^ e := by
  obtain ⟨-, hfinite, hmagnitude, -⟩ := h.mk_bits range rfl
  have heq : |x.magnitude - q| = |(m : ℚ) * 2 ^ e - q| :=
    le_antisymm (hmagnitude ▸ nearest _ hfinite) (h.le x)
  rcases h.even_of_eq heq.symm with hx | ⟨-, hodd⟩
  · exact hx
  · rcases even _ hfinite (hmagnitude ▸ heq) with hx | hx
    · rw [← hx, hmagnitude]
    · exact absurd hx hodd

end Scaled

theorem rescale_div (num den : ℕ) (e : ℤ) :
    ((rescale num den e).1 : ℚ) / (rescale num den e).2 = num / den / 2 ^ e := by
  cases e with
  | ofNat e =>
    change (num : ℚ) / (den * 2 ^ e : ℕ) = num / den / 2 ^ (e : ℤ)
    rw [zpow_natCast, div_div]
    push_cast
    rfl
  | negSucc e =>
    change ((num * 2 ^ (e + 1) : ℕ) : ℚ) / den = num / den / 2 ^ Int.negSucc e
    rw [zpow_negSucc, div_inv_eq_mul]
    push_cast
    ring

theorem rescale_ne_zero (num : ℕ) {den : ℕ} (hden : den ≠ 0) (e : ℤ) : (rescale num den e).2 ≠ 0 := by
  cases e with
  | ofNat e => exact Nat.mul_ne_zero hden (Nat.pow_pos Nat.two_pos).ne'
  | negSucc e => exact hden

theorem log2_bounds {n : ℕ} (h : n ≠ 0) : (2 : ℚ) ^ (n.log2 : ℤ) ≤ n ∧ (n : ℚ) < 2 ^ ((n.log2 : ℤ) + 1) := by
  rw [← Nat.cast_succ, zpow_natCast, zpow_natCast]
  exact ⟨by exact_mod_cast Nat.log2_self_le h, by exact_mod_cast Nat.lt_log2_self⟩

theorem ratio_bounds {num den : ℕ} (hnum : num ≠ 0) (hden : den ≠ 0) {e : ℤ}
    (he : e = (num.log2 : ℤ) - den.log2 - 52) :
    2 ^ 51 ≤ (num : ℚ) / den / 2 ^ e ∧ (num : ℚ) / den / 2 ^ e < 2 ^ 53 := by
  have hpos : (0 : ℚ) < den := by positivity
  obtain ⟨hnumLow, hnumHigh⟩ := log2_bounds hnum
  obtain ⟨hdenLow, hdenHigh⟩ := log2_bounds hden
  rw [le_div_iff₀ (two_zpow_pos e), div_lt_iff₀ (two_zpow_pos e), le_div_iff₀ hpos, div_lt_iff₀ hpos]
  constructor
  · calc (2 : ℚ) ^ 51 * 2 ^ e * den ≤ 2 ^ 51 * 2 ^ e * 2 ^ ((den.log2 : ℤ) + 1) := by gcongr
      _ = 2 ^ (51 + e + ((den.log2 : ℤ) + 1)) := by
        rw [two_zpow_add (51 + e), two_zpow_add 51]
        rfl
      _ = 2 ^ (num.log2 : ℤ) := by
        congr 1
        omega
      _ ≤ num := hnumLow
  · calc (num : ℚ) < 2 ^ ((num.log2 : ℤ) + 1) := hnumHigh
      _ = 2 ^ (53 + e + (den.log2 : ℤ)) := by
        congr 1
        omega
      _ = 2 ^ 53 * 2 ^ e * 2 ^ (den.log2 : ℤ) := by
        rw [two_zpow_add, two_zpow_add 53]
        rfl
      _ ≤ 2 ^ 53 * 2 ^ e * den := by gcongr

theorem exponentOf_spec {num den : ℕ} (hnum : num ≠ 0) (hden : den ≠ 0) :
    ∃ e : ℤ, exponentOf num den = max (-1074) e ∧ 2 ^ 52 ≤ (num : ℚ) / den / 2 ^ e ∧
      (num : ℚ) / den / 2 ^ e < 2 ^ 53 := by
  obtain ⟨e, he⟩ : ∃ e : ℤ, e = (num.log2 : ℤ) - den.log2 - 52 := ⟨_, rfl⟩
  obtain ⟨hlow, hhigh⟩ := ratio_bounds hnum hden he
  have hpos : (0 : ℚ) < (rescale num den e).2 := by
    exact_mod_cast Nat.pos_of_ne_zero (rescale_ne_zero num hden e)
  have hiff : (num : ℚ) / den / 2 ^ e < 2 ^ 52 ↔
      (rescale num den e).1 < Nat.pow 2 52 * (rescale num den e).2 := by
    rw [← rescale_div, div_lt_iff₀ hpos]
    exact_mod_cast Iff.rfl
  have hexponent : exponentOf num den =
      max (-1074) (if (num : ℚ) / den / 2 ^ e < 2 ^ 52 then e - 1 else e) := by
    simp only [hiff]
    rw [he]
    rfl
  split at hexponent
  next hlt =>
    have hdouble : (num : ℚ) / den / 2 ^ (e - 1) = 2 * (num / den / 2 ^ e) := by
      rw [zpow_sub_one₀ two_ne_zero, ← div_div, div_inv_eq_mul, mul_comm]
    refine ⟨e - 1, hexponent, ?_, ?_⟩ <;> linarith
  next hge => exact ⟨e, hexponent, not_lt.1 hge, hhigh⟩

theorem scaled_ratio {num den : ℕ} (hnum : num ≠ 0) (hden : den ≠ 0) :
    Scaled (num / den) (exponentOf num den) (roundEven (rescale num den (exponentOf num den)).1
      (rescale num den (exponentOf num den)).2) := by
  obtain ⟨e, he, hlow, hhigh⟩ := exponentOf_spec hnum hden
  obtain ⟨hhalf, heven⟩ := roundEven_half (rescale num den (exponentOf num den)).1
    (rescale_ne_zero num hden (exponentOf num den))
  rw [rescale_div] at hhalf heven
  refine ⟨?_, fun hne => ?_, lt_of_le_of_lt ?_ hhigh, hhalf, heven⟩
  · rw [he]
    exact le_max_left ..
  · rw [he, max_eq_right (by omega)]
    exact hlow
  · rw [he]
    gcongr
    · exact one_le_two
    · exact le_max_right ..

theorem scaled_zero (hq : 0 ≤ q) (h : q / 2 ^ (-1074 : ℤ) < 1 / 2) : Scaled q (-1074) 0 := by
  have hnonneg : 0 ≤ q / 2 ^ (-1074 : ℤ) := div_nonneg hq (two_zpow_pos _).le
  refine ⟨le_rfl, fun hne => absurd rfl hne, by linarith, ?_, fun _ => Even.zero⟩
  rw [Nat.cast_zero, zero_sub, abs_neg, abs_of_nonneg hnonneg]
  exact h.le

theorem Scaled.rounds_zero (h : Scaled q (-1074) 0) : Rounds false q ⟨0⟩ := by
  have hrounds := h.rounds_bits (rfl : 0 = _)
  rw [if_pos (by decide)] at hrounds
  exact hrounds

theorem exists_scaled (hq : 0 ≤ q) : ∃ e m, Scaled q e m := by
  rcases hq.eq_or_lt with rfl | hpos
  · exact ⟨_, _, scaled_zero le_rfl (by norm_num)⟩
  · have hnum : ((q.num.natAbs : ℤ) : ℚ) = q.num := by rw [Int.natAbs_of_nonneg (Rat.num_nonneg.2 hq)]
    have hratio : ((q.num.natAbs : ℕ) : ℚ) / q.den = q := by
      rw [← Int.cast_natCast, hnum, Rat.num_div_den]
    have hscaled := scaled_ratio (Int.natAbs_ne_zero.2 (Rat.num_pos.2 hpos).ne') q.den_nz
    rw [hratio] at hscaled
    exact ⟨_, _, hscaled⟩

theorem rounds_ofRatio (num : ℕ) {den : ℕ} (hden : den ≠ 0) : Rounds false (num / den) (ofRatio num den) := by
  rcases eq_or_ne num 0 with rfl | hnum
  · rw [Nat.cast_zero, zero_div]
    exact (scaled_zero le_rfl (by norm_num)).rounds_zero
  · have hrounds := (scaled_ratio hnum hden).rounds_bits rfl
    rw [ofRatio, if_neg hnum]
    exact hrounds

theorem Rounds.unique {negative : Bool} (hq : 0 ≤ q) (hx : Rounds negative q x) (hy : Rounds negative q y) :
    x = y := by
  obtain ⟨e, m, h⟩ := exists_scaled hq
  cases hx with
  | infinite range eq =>
    cases hy with
    | finite range' => exact absurd range' (not_lt.2 range)
    | infinite _ eq' => rw [eq, eq']
  | finite range _ sign nearest even =>
    cases hy with
    | infinite range' => exact absurd range (not_lt.2 range')
    | finite _ _ sign' nearest' even' =>
      refine eq_of_magnitude (sign.trans sign'.symm) ?_
      rw [h.magnitude_eq range nearest even, h.magnitude_eq range nearest' even']

theorem Rounds.of_overflow {negative : Bool} {q' : ℚ} (h : Rounds negative q x) (hq : overflow ≤ q)
    (hq' : overflow ≤ q') : Rounds negative q' x := by
  cases h with
  | finite range => exact absurd range (not_lt.2 hq)
  | infinite _ eq => exact .infinite hq' eq

theorem Rounds.of_scaled {q' : ℚ} (h : Rounds false q x) (hq : 0 ≤ q) (hscaled : Scaled q e m)
    (hscaled' : Scaled q' e m) : Rounds false q' x := by
  rw [h.unique hq (hscaled.rounds_bits rfl)]
  exact hscaled'.rounds_bits rfl

end Loon.Double

namespace Loon.Decimal

open Double

theorem two_zpow_le_ten_zpow {n : ℤ} (h : 0 ≤ n) : (2 : ℚ) ^ (3 * n) ≤ 10 ^ n := by
  rw [zpow_mul]
  exact zpow_le_zpow_left₀ h (by norm_num) (by norm_num)

theorem overflow_le {digits : ℕ} {n : ℤ} (hdigits : digits ≠ 0) (h : 400 < n) :
    overflow ≤ digits * 10 ^ n := by
  have hone : (1 : ℚ) ≤ digits := by exact_mod_cast Nat.one_le_iff_ne_zero.2 hdigits
  calc overflow ≤ 2 ^ (53 : ℤ) * 2 ^ (971 : ℤ) := by
        refine mul_le_mul_of_nonneg_right ?_ (two_zpow_pos 971).le
        norm_num
    _ = 2 ^ (53 + 971 : ℤ) := (two_zpow_add ..).symm
    _ ≤ 2 ^ (3 * n) := zpow_le_zpow_right₀ one_le_two (by omega)
    _ ≤ 10 ^ n := two_zpow_le_ten_zpow (by omega)
    _ ≤ digits * 10 ^ n := le_mul_of_one_le_left (by positivity) hone

theorem scaled_of_lt {q : ℚ} {n e : ℤ} (hq : 0 ≤ q) (hlt : q < 2 ^ n / 10 ^ e) (he : 0 ≤ e)
    (h : n + 1075 ≤ 3 * e) : Scaled q (-1074) 0 := by
  refine scaled_zero hq ((div_lt_iff₀ (two_zpow_pos _)).2 (hlt.trans_le ?_))
  rw [div_le_iff₀ (by positivity)]
  calc (2 : ℚ) ^ n ≤ 2 ^ (-1 + -1074 + 3 * e) := zpow_le_zpow_right₀ one_le_two (by omega)
    _ = 1 / 2 * 2 ^ (-1074 : ℤ) * 2 ^ (3 * e) := by
      rw [two_zpow_add, two_zpow_add (-1), zpow_neg_one, one_div]
    _ ≤ 1 / 2 * 2 ^ (-1074 : ℤ) * 10 ^ e := by
      have hscale := two_zpow_le_ten_zpow he
      gcongr

theorem scaled_of_digits {digits length : ℕ} {n : ℤ} (hdigits : digits < 10 ^ length)
    (h : n + length ≤ -400) : Scaled (digits * 10 ^ n) (-1074) 0 := by
  have hcast : (digits : ℚ) < 10 ^ (length : ℤ) := by
    rw [zpow_natCast]
    exact_mod_cast hdigits
  have hlt : (digits : ℚ) * 10 ^ n < 2 ^ (0 : ℤ) / 10 ^ (-(length + n)) := by
    calc (digits : ℚ) * 10 ^ n < 10 ^ (length : ℤ) * 10 ^ n := by gcongr
      _ = 10 ^ (length + n) := (zpow_add₀ (by norm_num) ..).symm
      _ = 2 ^ (0 : ℤ) / 10 ^ (-(length + n)) := by rw [zpow_neg, zpow_zero, one_div, inv_inv]
  exact scaled_of_lt (by positivity) hlt (by omega) (by omega)

/-- A decimal is rounded to the nearest double, also where the power of ten is not computed. -/
theorem rounds_toDouble (d : Decimal) : Rounds false (d.digits * 10 ^ d.exponent) d.toDouble := by
  obtain ⟨digits, exponent⟩ := d
  unfold toDouble
  dsimp only
  split
  next h =>
    subst h
    simpa using rounds_ofRatio 0 one_ne_zero
  next hdigits =>
    cases exponent with
    | ofNat e =>
      have hvalue : (digits : ℚ) * 10 ^ Int.ofNat e = (digits * Nat.pow 10 e : ℕ) / (1 : ℕ) := by
        rw [Int.ofNat_eq_natCast, zpow_natCast, Nat.pow_eq]
        push_cast
        rw [div_one]
      dsimp only
      split
      next he => exact .infinite (overflow_le hdigits (by simpa using he)) rfl
      next => exact hvalue ▸ rounds_ofRatio _ one_ne_zero
    | negSucc e =>
      have hvalue : (digits : ℚ) * 10 ^ Int.negSucc e = digits / (Nat.pow 10 (e + 1) : ℕ) := by
        rw [zpow_negSucc, Nat.pow_eq, div_eq_mul_inv]
        push_cast
        rfl
      dsimp only
      split
      next he =>
        have hlt : (digits : ℚ) * 10 ^ Int.negSucc e <
            2 ^ ((digits.log2 : ℤ) + 1) / 10 ^ ((e + 1 : ℕ) : ℤ) := by
          have hlog := (log2_bounds hdigits).2
          rw [zpow_negSucc, ← div_eq_mul_inv, zpow_natCast]
          gcongr
        exact (scaled_of_lt (by positivity) hlt (Int.natCast_nonneg _) (by omega)).rounds_zero
      next => exact hvalue ▸ rounds_ofRatio _ (Nat.pow_pos (by decide)).ne'

end Loon.Decimal
