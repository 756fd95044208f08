import Clausal.Proofs.Nearest
import Mathlib.Algebra.Order.Field.Power

/-!
# Distances with rounded quotients

The distance of two fractions is computed with a number of significant bits: both quotients and their
difference are rounded once. Each rounding changes a number by a small part of it only, so that the
computed distance differs little from the exact one.

## Main results

`Dyadic.abs_roundQuotient_sub_le`: the relative error of a rounded quotient.

`abs_distance_sub_le`: the error of a computed distance.
-/

namespace Clausal

namespace Dyadic

def value (x : Dyadic) : ℚ := x.mantissa * 2 ^ x.exponent

/-! ### Exact operations -/

theorem mantissaAt_mul {x : Dyadic} {e : Int} (less : e ≤ x.exponent) :
    (x.mantissaAt e * 2 ^ e : ℚ) = x.value := by
  have power : ((pow2 (x.exponent - e).toNat : Nat) : ℚ) = 2 ^ (x.exponent - e) := by
    rw [pow2_eq, Nat.cast_pow, Nat.cast_ofNat, ← zpow_natCast, Int.toNat_of_nonneg (by omega)]
  rw [mantissaAt, Int.cast_mul, Int.cast_natCast, power, mul_assoc, ← zpow_add₀ (by norm_num),
    sub_add_cancel]
  rfl

@[simp] theorem value_sub (x y : Dyadic) : (x.sub y).value = x.value - y.value := by
  have left := mantissaAt_mul (x := x) (min_le_left x.exponent y.exponent)
  have right := mantissaAt_mul (x := y) (min_le_right x.exponent y.exponent)
  rw [← left, ← right, ← sub_mul, ← Int.cast_sub]
  rfl

@[simp] theorem value_abs (x : Dyadic) : x.abs.value = |x.value| := by
  have power : (0 : ℚ) < 2 ^ x.exponent := by positivity
  rw [value, value, abs_mul, abs_of_pos power, Dyadic.abs, Int.cast_natCast, Nat.cast_natAbs, Int.cast_abs]

theorem le_iff (x y : Dyadic) : x.le y = true ↔ x.value ≤ y.value := by
  have power : (0 : ℚ) < 2 ^ (min x.exponent y.exponent) := by positivity
  rw [← mantissaAt_mul (x := x) (min_le_left x.exponent y.exponent),
    ← mantissaAt_mul (x := y) (min_le_right x.exponent y.exponent),
    mul_le_mul_iff_left₀ power, Int.cast_le]
  exact decide_eq_true_iff

/-! ### Rounding -/

/-- The exponent at which a quotient is rounded. -/
def roundingExponent (precision num den : Nat) : Int :=
  let guess : Int := Nat.log2 num - Nat.log2 den - precision
  if Nat.log2 (num * pow2 (-guess).toNat / (den * pow2 guess.toNat)) + 1 ≤ precision then guess
  else guess + 1

/-- A rounded quotient is the nearest integer at its own scale. -/
theorem value_roundQuotient {precision num den : Nat} (nonzero : num ≠ 0) :
    (roundQuotient precision num den).value =
      divNearest (num * pow2 (-roundingExponent precision num den).toNat)
        (den * pow2 (roundingExponent precision num den).toNat) *
          2 ^ roundingExponent precision num den := by
  rw [roundQuotient, if_neg nonzero]
  rfl

/-- A power of two with either sign in its exponent. -/
theorem pow2_div_pow2 (e : Int) : (pow2 e.toNat : ℚ) / pow2 (-e).toNat = 2 ^ e := by
  obtain ⟨n, rfl | rfl⟩ := e.eq_nat_or_neg
  · simp [pow2_eq]
  · simp [pow2_eq]

/-- Scaling by a power of two, of either sign, takes natural numbers only. -/
theorem scaled_quotient (num den : Nat) (e : Int) :
    ((num * pow2 (-e).toNat : Nat) : ℚ) / (den * pow2 e.toNat : Nat) = num / den / 2 ^ e := by
  rw [← pow2_div_pow2, Nat.cast_mul, Nat.cast_mul, mul_div_mul_comm, div_div_eq_mul_div, mul_div_assoc]

/-- The quotient has at least as many bits above the exponent as the precision asks for. -/
theorem roundingExponent_le {precision num den : Nat} (nonzero : num ≠ 0) (positive : 0 < den)
    (bits : 0 < precision) :
    (2 : ℚ) ^ (roundingExponent precision num den + precision - 1) ≤ num / den := by
  have two : (2 : ℚ) ≠ 0 := by norm_num
  have denominator : (0 : ℚ) < den := Nat.cast_pos.mpr positive
  have guessed : (2 : ℚ) ^ ((Nat.log2 num : Int) - Nat.log2 den - 1) ≤ num / den := by
    have above : ((2 ^ Nat.log2 num : Nat) : ℚ) ≤ num := Nat.cast_le.mpr (Nat.log2_self_le nonzero)
    have below : (den : ℚ) ≤ (2 ^ (Nat.log2 den + 1) : Nat) :=
      Nat.cast_le.mpr (Nat.le_of_lt Nat.lt_log2_self)
    rw [le_div_iff₀ denominator]
    calc (2 : ℚ) ^ ((Nat.log2 num : Int) - Nat.log2 den - 1) * den
        ≤ 2 ^ ((Nat.log2 num : Int) - Nat.log2 den - 1) * (2 ^ (Nat.log2 den + 1) : Nat) :=
          mul_le_mul_of_nonneg_left below (by positivity)
      _ = (2 ^ Nat.log2 num : Nat) := by
          push_cast
          rw [← zpow_natCast, ← zpow_natCast, ← zpow_add₀ two]
          congr 1
          push_cast
          ring
      _ ≤ num := above
  unfold roundingExponent
  simp only
  generalize difference : (Nat.log2 num - Nat.log2 den - precision : Int) = guess
  split
  · have exponent : guess + precision - 1 = (Nat.log2 num : Int) - Nat.log2 den - 1 := by omega
    rw [exponent]
    exact guessed
  next more =>
    -- One bit more is there than asked for, so that the next exponent does as well.
    have scaled := scaled_quotient num den guess
    generalize num * pow2 (-guess).toNat = n at more scaled
    generalize den * pow2 guess.toNat = m at more scaled
    have present : n / m ≠ 0 := by
      intro none
      rw [none] at more
      exact more bits
    have whole : ((2 ^ precision : Nat) : ℚ) ≤ num / den / 2 ^ guess := by
      rw [← scaled]
      refine le_trans (Nat.cast_le.mpr ?_) Nat.cast_div_le
      exact Nat.le_trans (Nat.pow_le_pow_right (by decide) (by omega)) (Nat.log2_self_le present)
    have exponent : guess + 1 + precision - 1 = precision + guess := by ring
    rw [le_div_iff₀ (by positivity)] at whole
    rw [exponent, zpow_add₀ two, zpow_natCast]
    push_cast at whole
    exact whole

/-- The relative error of a rounded quotient. -/
theorem abs_roundQuotient_sub_le (num : Nat) {precision den : Nat} (positive : 0 < den)
    (bits : 0 < precision) :
    |(roundQuotient precision num den).value - num / den| ≤ num / den / 2 ^ precision := by
  rcases eq_or_ne num 0 with rfl | nonzero
  · simp [roundQuotient, value]
  · have exponent := roundingExponent_le nonzero positive bits
    rw [value_roundQuotient nonzero]
    generalize roundingExponent precision num den = e at exponent ⊢
    have power : (0 : ℚ) < 2 ^ e := by positivity
    have near := abs_divNearest_sub_le (num * pow2 (-e).toNat)
      (Nat.mul_pos positive (pow2_pos e.toNat))
    rw [scaled_quotient] at near
    generalize divNearest (num * pow2 (-e).toNat) (den * pow2 e.toNat) = n at near ⊢
    rw [abs_mul_sub power]
    calc |(n : ℚ) - num / den / 2 ^ e| * 2 ^ e ≤ 1 / 2 * 2 ^ e :=
          mul_le_mul_of_nonneg_right near power.le
      _ = 2 ^ (e + precision - 1) / 2 ^ precision := by
          rw [zpow_sub₀ (by norm_num), zpow_add₀ (by norm_num), zpow_natCast]
          field_simp
      _ ≤ num / den / 2 ^ precision := div_le_div_of_nonneg_right exponent (by positivity)

/-- The relative error of a rounded number. -/
theorem abs_round_sub_le (x : Dyadic) {precision : Nat} (bits : 0 < precision) :
    |(x.round precision).value - x.value| ≤ |x.value| / 2 ^ precision := by
  have quotient : ((x.mantissa.natAbs * pow2 x.exponent.toNat : Nat) : ℚ) /
      (pow2 (-x.exponent).toNat : Nat) = |x.value| := by
    rw [Nat.cast_mul, mul_div_assoc, pow2_div_pow2, value, abs_mul, Nat.cast_natAbs, Int.cast_abs]
    congr 1
    exact (abs_of_pos (by positivity)).symm
  have error := abs_roundQuotient_sub_le (x.mantissa.natAbs * pow2 x.exponent.toNat)
    (pow2_pos (-x.exponent).toNat) bits
  rw [quotient] at error
  have rounded : (x.round precision).value = (x.mantissa.sign : ℚ) *
      (roundQuotient precision (x.mantissa.natAbs * pow2 x.exponent.toNat)
        (pow2 (-x.exponent).toNat)).value := by
    simp only [round, value, Int.cast_mul, mul_assoc]
  have exact : x.value = (x.mantissa.sign : ℚ) * |x.value| := by
    have power : (0 : ℚ) < 2 ^ x.exponent := by positivity
    rw [value, abs_mul, abs_of_pos power, ← mul_assoc, ← Int.cast_abs, ← Int.cast_mul,
      Int.sign_mul_abs]
  have unit : |(x.mantissa.sign : ℚ)| ≤ 1 := by
    rcases Int.sign_trichotomy x.mantissa with sign | sign | sign <;> simp [sign]
  have difference : (x.round precision).value - x.value = (x.mantissa.sign : ℚ) *
      ((roundQuotient precision (x.mantissa.natAbs * pow2 x.exponent.toNat)
        (pow2 (-x.exponent).toNat)).value - |x.value|) := by
    rw [rounded, mul_sub, ← exact]
  rw [difference, abs_mul]
  exact le_trans (mul_le_of_le_one_left (abs_nonneg _) unit) error

end Dyadic

/-! ### Distances of fractions -/

namespace Fraction

/-- A difference of two rounded numbers that is rounded again. -/
theorem abs_sub_of_roundings {v w p q r u bound : ℚ} (nonneg : 0 ≤ u) (small : u ≤ 1)
    (first : |p - v| ≤ bound * u) (second : |q - w| ≤ bound * u)
    (third : |r - (p - q)| ≤ |p - q| * u) :
    |(|r|) - (|v - w|)| ≤ (|v - w| + 4 * bound) * u := by
  have inner : |(p - q) - (v - w)| ≤ 2 * (bound * u) := by
    have split : (p - q) - (v - w) = (p - v) - (q - w) := by ring
    rw [split]
    linarith [abs_sub (p - v) (q - w)]
  have difference : |p - q| ≤ |v - w| + 2 * (bound * u) := by
    linarith [abs_sub_abs_le_abs_sub (p - q) (v - w)]
  have product : |p - q| * u ≤ (|v - w| + 2 * (bound * u)) * u :=
    mul_le_mul_of_nonneg_right difference nonneg
  have square : bound * u * u ≤ bound * u :=
    mul_le_of_le_one_right ((abs_nonneg _).trans first) small
  calc |(|r|) - (|v - w|)| ≤ |r - (v - w)| := abs_abs_sub_abs_le r (v - w)
    _ ≤ |r - (p - q)| + |(p - q) - (v - w)| := abs_sub_le r (p - q) (v - w)
    _ ≤ (|v - w| + 2 * (bound * u)) * u + 2 * (bound * u) := by linarith
    _ ≤ (|v - w| + 4 * bound) * u := by linarith

/-- The error of a computed distance, for fractions up to a bound. -/
theorem abs_distance_sub_le {a b : Nat × Nat} {bound : ℚ} (left : 0 < a.2) (right : 0 < b.2)
    (first : ratio a ≤ bound) (second : ratio b ≤ bound) :
    |(distance a b).value - (|ratio a - ratio b|)| ≤
      (|ratio a - ratio b| + 4 * bound) * (1 / 2 ^ distancePrecision) := by
  have bits : 0 < distancePrecision := by decide
  have nonneg : (0 : ℚ) ≤ 1 / 2 ^ distancePrecision := by positivity
  have small : (1 : ℚ) / 2 ^ distancePrecision ≤ 1 := by norm_num [distancePrecision]
  have quotient {c : Nat × Nat} (positive : 0 < c.2) (most : ratio c ≤ bound) :
      |(Dyadic.roundQuotient distancePrecision c.1 c.2).value - ratio c| ≤
        bound * (1 / 2 ^ distancePrecision) := by
    refine (Dyadic.abs_roundQuotient_sub_le c.1 positive bits).trans ?_
    rw [div_eq_mul_one_div]
    exact mul_le_mul_of_nonneg_right most nonneg
  have difference := Dyadic.abs_round_sub_le ((Dyadic.roundQuotient distancePrecision a.1 a.2).sub
    (Dyadic.roundQuotient distancePrecision b.1 b.2)) bits
  rw [Dyadic.value_sub, div_eq_mul_one_div] at difference
  have bounded := abs_sub_of_roundings nonneg small (quotient left first) (quotient right second)
    difference
  rwa [← Dyadic.value_abs] at bounded

end Fraction

end Clausal
