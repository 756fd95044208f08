import Clausal.Proofs.Digits
import Mathlib.Algebra.Order.Group.Nat
import Mathlib.Tactic.Ring

/-!
# Rounding is exact on numbers of the format

The number nearest to a ratio that is itself a number of the format is that number, and it depends on
the ratio only. So the exact value of a number, and any decimal that was seen to read back, still does
after zeros at its end are dropped.
-/

namespace Clausal

theorem pow2_eq (n : Nat) : pow2 n = 2 ^ n := rfl

theorem pow2_pos (n : Nat) : 0 < pow2 n := Nat.pow_pos (by decide)

theorem pow2_add (m n : Nat) : pow2 (m + n) = pow2 m * pow2 n := Nat.pow_add 2 m n

theorem pow2_le_pow2 {m n : Nat} (less : m ≤ n) : pow2 m ≤ pow2 n :=
  Nat.pow_le_pow_right (by decide) less

theorem lt_of_pow2_lt {m n : Nat} (less : pow2 m < pow2 n) : m < n := by
  by_contra more
  exact absurd (pow2_le_pow2 (Nat.not_lt.mp more)) (Nat.not_le.mpr less)

theorem pow2_dvd_pow2 {m n : Nat} (less : m ≤ n) : pow2 m ∣ pow2 n := Nat.pow_dvd_pow 2 less

theorem pow10_pos (n : Nat) : 0 < pow10 n := Nat.pow_pos (by decide)

theorem divNearest_exact (q den : Nat) (positive : 0 < den) : divNearest (q * den) den = q := by
  unfold divNearest
  rw [Nat.mul_div_cancel q positive, Nat.mul_mod_left]
  simp [positive]

/-- Rounding does not depend on a common factor. -/
theorem divNearest_mul_left (k num den : Nat) (positive : 0 < k) :
    divNearest (k * num) (k * den) = divNearest num den := by
  have less : 2 * (k * (num % den)) < k * den ↔ 2 * (num % den) < den := by
    rw [Nat.mul_left_comm, Nat.mul_lt_mul_left positive]
  have more : k * den < 2 * (k * (num % den)) ↔ den < 2 * (num % den) := by
    rw [Nat.mul_left_comm, Nat.mul_lt_mul_left positive]
  unfold divNearest
  simp only [Nat.mul_div_mul_left num den positive, Nat.mul_mod_mul_left, less, more]

/-- Rounding goes to one of the two neighbours. -/
theorem divNearest_bounds (num den : Nat) :
    num / den ≤ divNearest num den ∧ divNearest num den ≤ num / den + 1 := by
  unfold divNearest
  dsimp only
  split
  · omega
  · split
    · omega
    · split <;> omega

namespace Binary64

theorem leadingBit_eq : leadingBit = 4503599627370496 := rfl

theorem signBit_eq : signBit = 2048 * leadingBit := rfl

theorem topField_eq : topField = 2047 := rfl

theorem magnitude_eq (x : Binary64) : x.magnitude = x.field * leadingBit + x.fraction := by
  rw [field, fraction, Nat.div_add_mod']

theorem fraction_lt (x : Binary64) : x.fraction < leadingBit := Nat.mod_lt _ (by decide)

theorem field_le (x : Binary64) : x.field ≤ topField := by
  have small : x.magnitude < signBit := Nat.mod_lt _ (by decide)
  have parts := x.magnitude_eq
  rw [signBit_eq, leadingBit_eq] at small
  rw [leadingBit_eq] at parts
  rw [topField_eq]
  omega

theorem field_lt (x : Binary64) (finite : x.isFinite = true) : x.field < topField := by
  have bound := x.field_le
  have proper : x.field ≠ topField := by simpa [isFinite] using finite
  omega

/-- A number is made up of its sign and its magnitude. -/
theorem ofMagnitude_self (x : Binary64) : ofMagnitude x.negative x.magnitude = x := by
  -- The sign bit is all that the magnitude leaves out.
  have whole : (if x.negative = true then signBit else 0) + x.magnitude = x.bits.toNat := by
    have bound : x.bits.toNat < 2 * signBit := x.bits.toNat_lt
    simp only [negative, magnitude, decide_eq_true_eq]
    split
    next set =>
      rw [Nat.mod_eq_sub_mod set, Nat.mod_eq_of_lt (by omega)]
      omega
    next clear => rw [Nat.mod_eq_of_lt (by omega), Nat.zero_add]
  unfold ofMagnitude
  rw [whole, UInt64.ofNat_toNat]

theorem magnitude_ofMagnitude (negative : Bool) (m : Nat) (small : m < signBit) :
    (ofMagnitude negative m).magnitude = m := by
  have value : (ofMagnitude negative m).bits.toNat = (if negative = true then signBit else 0) + m := by
    apply Nat.mod_eq_of_lt
    have total : 2 ^ 64 = 2 * signBit := rfl
    split <;> omega
  unfold magnitude
  rw [value]
  split
  · rw [Nat.add_mod_left, Nat.mod_eq_of_lt small]
  · rw [Nat.zero_add, Nat.mod_eq_of_lt small]

theorem significand_lt (x : Binary64) : x.significand < 2 * leadingBit := by
  have small := x.fraction_lt
  unfold significand
  split <;> omega

/-- The magnitude of a number grows with its scale, and within a scale with its significand. -/
theorem magnitude_eq_scale (x : Binary64) :
    x.magnitude = x.scale * leadingBit + x.significand := by
  rw [x.magnitude_eq, scale, significand]
  split
  next zero => simp [zero]
  next normal =>
    obtain ⟨n, equal⟩ := Nat.exists_eq_succ_of_ne_zero normal
    rw [equal, Nat.succ_mul, Nat.succ_sub_one]
    omega

/-- The scale can be told from the units alone. -/
theorem log2_units (x : Binary64) : Nat.log2 x.units - 52 = x.scale := by
  have small := x.fraction_lt
  by_cases zero : x.field = 0
  · have units : x.units = x.fraction := by
      simp [units, significand, scale, zero, pow2]
    rw [units, scale, zero]
    by_cases none : x.fraction = 0
    · simp [none]
    · have low := (Nat.log2_lt none).mpr (show x.fraction < 2 ^ 52 from small)
      omega
  · have units : x.units = (leadingBit + x.fraction) * pow2 x.scale := by
      simp [units, significand, zero]
    -- A normal significand has its leading bit at 52, so the scale is all that the logarithm adds.
    have log : Nat.log2 x.units = 52 + x.scale := by
      have positive := pow2_pos x.scale
      rw [units, Nat.log2_eq_iff, Nat.add_right_comm, Nat.pow_add, Nat.pow_add, ← pow2_eq x.scale]
      · constructor
        · exact Nat.mul_le_mul_right _ (show 2 ^ 52 ≤ leadingBit + x.fraction from Nat.le_add_right _ _)
        · apply Nat.mul_lt_mul_of_pos_right _ positive
          show leadingBit + x.fraction < 2 * leadingBit
          omega
      · have large : 0 < leadingBit + x.fraction := Nat.add_pos_left (by decide) _
        exact (Nat.mul_pos large positive).ne'
    omega

/-- The nearest number to the exact value of a number is that number. -/
theorem ofRatio_exact (x : Binary64) (finite : x.isFinite = true) (num den : Nat) (positive : 0 < den)
    (equal : num * unitsPerOne = x.units * den) : ofRatio x.negative num den = x := by
  have rounded : divNearest (x.units * den) (den * pow2 x.scale) = x.significand := by
    rw [units, Nat.mul_assoc, Nat.mul_comm (pow2 x.scale)]
    exact divNearest_exact _ _ (Nat.mul_pos positive (pow2_pos _))
  have small : x.magnitude ≤ topField * leadingBit := by
    have field := x.field_lt finite
    have fraction := x.fraction_lt
    rw [x.magnitude_eq]
    calc x.field * leadingBit + x.fraction ≤ x.field * leadingBit + leadingBit := by omega
      _ = (x.field + 1) * leadingBit := (Nat.succ_mul _ _).symm
      _ ≤ topField * leadingBit := Nat.mul_le_mul_right _ field
  unfold ofRatio
  simp only [equal, Nat.mul_div_cancel _ positive, log2_units, rounded, ← magnitude_eq_scale]
  rw [Nat.min_eq_left small, ofMagnitude_self]

/-- The nearest number depends on the ratio only. -/
theorem ofRatio_mul_left (negative : Bool) (k num den : Nat) (positive : 0 < k) :
    ofRatio negative (k * num) (k * den) = ofRatio negative num den := by
  unfold ofRatio
  simp only [Nat.mul_assoc, Nat.mul_div_mul_left _ _ positive, divNearest_mul_left _ _ _ positive]

/-- The bits of a scaled significand, which may have carried into the next power of two. -/
theorem units_ofMagnitude (negative : Bool) (scale q : Nat) (bound : q ≤ 2 * leadingBit)
    (normal : scale ≠ 0 → leadingBit ≤ q) (small : scale * leadingBit + q < topField * leadingBit) :
    (ofMagnitude negative (scale * leadingBit + q)).units = q * pow2 scale := by
  have magnitude := magnitude_ofMagnitude negative (scale * leadingBit + q)
    (Nat.lt_of_lt_of_le small (by decide))
  generalize ofMagnitude negative (scale * leadingBit + q) = x at magnitude
  have positive : 0 < leadingBit := by decide
  have parts := x.magnitude_eq
  have fraction := x.fraction_lt
  -- The field and the fraction are the quotient and the remainder of the magnitude.
  have digits (f r : Nat) (less : r < leadingBit) (equal : scale * leadingBit + q = f * leadingBit + r) :
      x.field = f ∧ x.fraction = r := by
    rw [field, Binary64.fraction, magnitude, equal]
    constructor
    · rw [Nat.mul_comm, Nat.mul_add_div positive, Nat.div_eq_of_lt less, Nat.add_zero]
    · rw [Nat.mul_add_mod_self_right, Nat.mod_eq_of_lt less]
  -- Below the leading bit there is no scale; at twice the leading bit the carry raises the field by one
  -- more and leaves no fraction.
  rw [units, significand, Binary64.scale]
  by_cases subnormal : q < leadingBit
  · have zero : scale = 0 := by
      by_contra nonzero
      exact absurd (normal nonzero) (Nat.not_le.mpr subnormal)
    obtain ⟨isZero, isFraction⟩ := digits 0 q subnormal (by rw [zero])
    rw [isZero, isFraction, if_pos rfl, zero]
  · by_cases carried : q = 2 * leadingBit
    · have equal : scale * leadingBit + q = (scale + 2) * leadingBit + 0 := by
        rw [carried]
        ring
      obtain ⟨isField, isFraction⟩ := digits (scale + 2) 0 positive equal
      rw [isField, isFraction, if_neg (by omega), carried, Nat.add_zero,
        show scale + 2 - 1 = scale + 1 from rfl, pow2_eq, pow2_eq]
      ring
    · have equal : scale * leadingBit + q = (scale + 1) * leadingBit + (q - leadingBit) := by
        rw [Nat.succ_mul]
        omega
      obtain ⟨isField, isFraction⟩ := digits (scale + 1) (q - leadingBit) (by omega) equal
      rw [isField, isFraction, if_neg (by omega), Nat.add_sub_cancel' (Nat.not_lt.mp subnormal),
        Nat.add_sub_cancel]

/-- The scale of the nearest number to a ratio in units. -/
def ratioScale (scaled den : Nat) : Nat := Nat.log2 (scaled / den) - 52

/-- At its own scale, a ratio is rounded to a significand, or to the next power of two. -/
theorem ratioScale_bounds (scaled den : Nat) :
    divNearest scaled (den * pow2 (ratioScale scaled den)) ≤ 2 * leadingBit ∧
      (ratioScale scaled den ≠ 0 →
        leadingBit ≤ divNearest scaled (den * pow2 (ratioScale scaled den))) := by
  obtain ⟨least, most⟩ := divNearest_bounds scaled (den * pow2 (ratioScale scaled den))
  rw [← Nat.div_div_eq_div_mul] at least most
  unfold ratioScale at least most ⊢
  -- Rounding at a scale divides the whole part of the ratio, whose logarithm gives that scale.
  generalize scaled / den = v at least most ⊢
  have positive := pow2_pos (v.log2 - 52)
  constructor
  · have quotient : v / pow2 (v.log2 - 52) < 2 * leadingBit := by
      rw [Nat.div_lt_iff_lt_mul positive]
      refine Nat.lt_of_lt_of_le Nat.lt_log2_self ?_
      show pow2 (v.log2 + 1) ≤ pow2 53 * pow2 (v.log2 - 52)
      rw [← pow2_add]
      exact pow2_le_pow2 (by omega)
    omega
  · intro large
    have nonzero : v ≠ 0 := by
      rintro rfl
      exact large rfl
    refine Nat.le_trans ?_ least
    rw [Nat.le_div_iff_mul_le positive]
    refine Nat.le_trans ?_ (Nat.log2_self_le nonzero)
    show pow2 52 * pow2 (v.log2 - 52) ≤ pow2 v.log2
    rw [← pow2_add]
    exact pow2_le_pow2 (by omega)

/-- A finite nearest number in units: the quotient rounded at its scale. -/
theorem units_ofRatio (negative : Bool) (num den : Nat)
    (finite : (ofRatio negative num den).isFinite = true) :
    (ofRatio negative num den).units =
      divNearest (num * unitsPerOne) (den * pow2 (ratioScale (num * unitsPerOne) den)) *
        pow2 (ratioScale (num * unitsPerOne) den) := by
  obtain ⟨most, least⟩ := ratioScale_bounds (num * unitsPerOne) den
  have form : ofRatio negative num den = ofMagnitude negative (min
      (ratioScale (num * unitsPerOne) den * leadingBit +
        divNearest (num * unitsPerOne) (den * pow2 (ratioScale (num * unitsPerOne) den)))
      (topField * leadingBit)) := rfl
  rw [form] at finite ⊢
  generalize divNearest (num * unitsPerOne) (den * pow2 (ratioScale (num * unitsPerOne) den)) = q
    at most least finite ⊢
  generalize ratioScale (num * unitsPerOne) den = scale at least finite ⊢
  -- What is cut off at the top is an infinity, which is not finite.
  by_cases small : scale * leadingBit + q < topField * leadingBit
  · rw [Nat.min_eq_left (Nat.le_of_lt small)]
    exact units_ofMagnitude negative scale q most least small
  · rw [Nat.min_eq_right (Nat.not_lt.mp small)] at finite
    cases negative <;> exact absurd finite (by decide)

/-- The nearest number to an integer is an integer. -/
theorem unitsPerOne_dvd_units (negative : Bool) (n : Nat)
    (finite : (ofRatio negative n 1).isFinite = true) :
    unitsPerOne ∣ (ofRatio negative n 1).units := by
  rw [units_ofRatio negative n 1 finite, Nat.one_mul]
  generalize ratioScale (n * unitsPerOne) 1 = scale
  -- At a small scale nothing is rounded, and at a large one every multiple of it is an integer.
  rcases Nat.le_total 1074 scale with large | small
  · exact Nat.dvd_mul_left_of_dvd (pow2_dvd_pow2 large) _
  · have split : unitsPerOne = pow2 (1074 - scale) * pow2 scale := by
      rw [unitsPerOne, ← pow2_add, Nat.sub_add_cancel small]
    rw [split, ← Nat.mul_assoc, divNearest_exact _ _ (pow2_pos scale), Nat.mul_assoc, ← split]
    exact Nat.dvd_mul_left _ _

/-- A finite number is below the power of two at which the format ends. -/
theorem units_lt (x : Binary64) (finite : x.isFinite = true) :
    x.units < pow2 1024 * unitsPerOne := by
  have field := x.field_lt finite
  have scale : x.scale ≤ 2045 := by
    rw [topField_eq] at field
    unfold Binary64.scale
    omega
  have significand := x.significand_lt
  calc x.units < 2 * leadingBit * pow2 x.scale :=
        Nat.mul_lt_mul_of_pos_right significand (pow2_pos _)
    _ ≤ 2 * leadingBit * pow2 2045 :=
        Nat.mul_le_mul_left _ (pow2_le_pow2 scale)
    _ = pow2 1024 * unitsPerOne := by decide +kernel

end Binary64

end Clausal
