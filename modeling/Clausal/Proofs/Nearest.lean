import Clausal.Proofs.Approximation
import Mathlib.Data.Nat.Cast.Order.Field

/-!
# Nearest numbers

A ratio is rounded to a number of the format. The result is nearest to the ratio among all finite
numbers, and the error is at most half of the last place.

## Main results

`ofRatio_nearest`: no finite number is nearer to a ratio than the one it is rounded to.

`abs_ofRatio_sub_le`: the error for ratios of at most a thousand.
-/

namespace Clausal

/-! ### Nearest integers -/

theorem one_le_abs_intCast {n : Int} (nonzero : n ≠ 0) : (1 : ℚ) ≤ |(n : ℚ)| := by
  exact_mod_cast Int.one_le_abs nonzero

/-- A distance measured in multiples of a step. -/
theorem abs_mul_sub {step : ℚ} (positive : 0 < step) (a x : ℚ) :
    |a * step - x| = |a - x / step| * step := by
  rw [← abs_of_pos positive, ← abs_mul, abs_of_pos positive, sub_mul, div_mul_cancel₀ _ positive.ne']

/-- The nearest integer is at most one half away. -/
theorem abs_divNearest_sub_le (num : Nat) {den : Nat} (positive : 0 < den) :
    |(divNearest num den : ℚ) - num / den| ≤ 1 / 2 := by
  have whole := Nat.div_add_mod num den
  have part := Nat.mod_lt num positive
  have doubled : 2 * num ≤ 2 * (den * divNearest num den) + den ∧
      2 * (den * divNearest num den) ≤ 2 * num + den := by
    unfold divNearest
    simp only
    split
    · omega
    · split
      · rw [Nat.mul_succ]
        omega
      · split
        · omega
        · rw [Nat.mul_succ]
          omega
  have denominator : (0 : ℚ) < den := by exact_mod_cast positive
  have lower : (2 * num : ℚ) ≤ 2 * (den * divNearest num den) + den := by exact_mod_cast doubled.1
  have upper : (2 * (den * divNearest num den) : ℚ) ≤ 2 * num + den := by exact_mod_cast doubled.2
  rw [abs_le]
  constructor
  · rw [neg_le_sub_iff_le_add, div_le_iff₀ denominator]
    linarith
  · rw [sub_le_iff_le_add, ← sub_le_iff_le_add', le_div_iff₀ denominator]
    linarith

/-- An integer within a half is nearest. -/
theorem abs_sub_le_of_le_half {x : ℚ} {n : Nat} (near : |(n : ℚ) - x| ≤ 1 / 2) (m : Nat) :
    |(n : ℚ) - x| ≤ |(m : ℚ) - x| := by
  rcases eq_or_ne m n with rfl | other
  · exact le_rfl
  · have apart : (1 : ℚ) ≤ |(m : ℚ) - n| := by
      exact_mod_cast one_le_abs_intCast (sub_ne_zero.mpr (Int.ofNat_inj.ne.mpr other))
    have triangle := abs_sub_le (m : ℚ) x n
    rw [abs_sub_comm x] at triangle
    linarith

namespace Binary64

/-! ### Nearest numbers of units -/

def ratioUnits (num den : Nat) : ℚ := (num * unitsPerOne : Nat) / den

theorem ratioUnits_div (num den : Nat) : ratioUnits num den / unitsPerOne = num / den := by
  have total : (unitsPerOne : ℚ) ≠ 0 := Nat.cast_ne_zero.mpr unitsPerOne_pos.ne'
  rw [ratioUnits, div_right_comm, Nat.cast_mul, mul_div_cancel_right₀ _ total]

/-- A ratio is rounded to the nearest multiple of the last place, and so by at most half of it. -/
theorem units_ofRatio_near {negative : Bool} {num den : Nat} (positive : 0 < den)
    (finite : (ofRatio negative num den).isFinite = true) (m : Nat) :
    |((ofRatio negative num den).units : ℚ) - ratioUnits num den| ≤
        |(m * pow2 (ratioScale (num * unitsPerOne) den) : ℚ) - ratioUnits num den| ∧
      |((ofRatio negative num den).units : ℚ) - ratioUnits num den| ≤
        pow2 (ratioScale (num * unitsPerOne) den) / 2 := by
  rw [units_ofRatio negative num den finite, ratioUnits]
  generalize num * unitsPerOne = scaled
  generalize ratioScale scaled den = k
  have power : (0 : ℚ) < pow2 k := by exact_mod_cast pow2_pos k
  have near := abs_divNearest_sub_le scaled (Nat.mul_pos positive (pow2_pos k))
  have best := abs_sub_le_of_le_half near m
  generalize divNearest scaled (den * pow2 k) = n at near best ⊢
  rw [Nat.cast_mul den, ← div_div] at near best
  rw [Nat.cast_mul, abs_mul_sub power, abs_mul_sub power]
  exact ⟨mul_le_mul_of_nonneg_right best power.le, by linarith [mul_le_mul_of_nonneg_right near power.le]⟩

/-- With a positive scale the ratio has at least the leading bit at that scale. -/
theorem leadingBit_le_ratioUnits (num den : Nat)
    (scaled : ratioScale (num * unitsPerOne) den ≠ 0) :
    ((leadingBit * pow2 (ratioScale (num * unitsPerOne) den) : Nat) : ℚ) ≤ ratioUnits num den := by
  refine le_trans ?_ Nat.cast_div_le
  unfold ratioScale at scaled ⊢
  generalize num * unitsPerOne / den = v at scaled ⊢
  have nonzero : v ≠ 0 := by
    rintro rfl
    exact scaled rfl
  have power : leadingBit * pow2 (Nat.log2 v - 52) = pow2 (Nat.log2 v) := by
    rw [leadingBit, ← pow2_add]
    congr 1
    omega
  rw [power]
  exact Nat.cast_le.mpr (Nat.log2_self_le nonzero)

/-- No finite number has a number of units nearer to a ratio than the one it is rounded to. -/
theorem units_ofRatio_nearest {negative : Bool} {num den : Nat} (positive : 0 < den)
    (finite : (ofRatio negative num den).isFinite = true) (w : Binary64) :
    |((ofRatio negative num den).units : ℚ) - ratioUnits num den| ≤
      |(w.units : ℚ) - ratioUnits num den| := by
  have near := units_ofRatio_near positive finite
  have leading := leadingBit_le_ratioUnits num den
  generalize ratioScale (num * unitsPerOne) den = k at near leading
  rcases Nat.lt_or_ge w.scale k with smaller | larger
  · -- Numbers of a smaller scale are all below the leading bit, which is below the ratio.
    have below : w.units ≤ leadingBit * pow2 k := by
      calc w.units ≤ 2 * leadingBit * pow2 w.scale :=
            Nat.mul_le_mul_right _ (Nat.le_of_lt w.significand_lt)
        _ = leadingBit * pow2 (w.scale + 1) := by rw [pow2_add, show pow2 1 = 2 from rfl]; ring
        _ ≤ leadingBit * pow2 k := Nat.mul_le_mul_left _ (pow2_le_pow2 smaller)
    have cast : (w.units : ℚ) ≤ (leadingBit * pow2 k : Nat) := Nat.cast_le.mpr below
    have above := leading (by omega)
    have best := (near leadingBit).1
    rw [← Nat.cast_mul, abs_of_nonpos (sub_nonpos.mpr above)] at best
    rw [abs_of_nonpos (sub_nonpos.mpr (cast.trans above))]
    linarith
  · -- Numbers of a larger scale are multiples of the last place.
    have multiple : w.units = w.significand * pow2 (w.scale - k) * pow2 k := by
      rw [Nat.mul_assoc, ← pow2_add, Nat.sub_add_cancel larger]
      rfl
    have best := (near (w.significand * pow2 (w.scale - k))).1
    rw [multiple]
    push_cast at best ⊢
    exact best

/-! ### Nearest values -/

theorem negative_ofMagnitude (negative : Bool) (m : Nat) (small : m < signBit) :
    (ofMagnitude negative m).negative = negative := by
  have value : (ofMagnitude negative m).bits.toNat = (if negative = true then signBit else 0) + m := by
    apply Nat.mod_eq_of_lt
    have total : 2 ^ 64 = 2 * signBit := rfl
    split <;> omega
  unfold Binary64.negative
  rw [value]
  cases negative <;> simp [small]

theorem negative_ofRatio (negative : Bool) (num den : Nat) :
    (ofRatio negative num den).negative = negative :=
  negative_ofMagnitude negative _ (Nat.lt_of_le_of_lt (Nat.min_le_right _ _) (by decide))

def signed (negative : Bool) (magnitude : ℚ) : ℚ := if negative then -magnitude else magnitude

/-- The distance of a number from a ratio with its sign. -/
theorem abs_value_sub_same (x : Binary64) (num den : Nat) :
    |x.value - signed x.negative (num / den)| = |(x.units : ℚ) - ratioUnits num den| / unitsPerOne := by
  have total : (0 : ℚ) < unitsPerOne := Nat.cast_pos.mpr unitsPerOne_pos
  rw [← abs_of_pos total, ← abs_div, sub_div, ratioUnits_div]
  unfold value signed
  split
  · rw [neg_sub_neg, abs_sub_comm]
  · rfl

/-- A ratio with the other sign is as far away as the sum of both. -/
theorem abs_value_sub_other (x : Binary64) (num den : Nat) :
    ratioUnits num den / unitsPerOne ≤ |x.value - signed (!x.negative) (num / den)| := by
  have magnitude := x.magnitude_nonneg
  have nonneg : (0 : ℚ) ≤ num / den := div_nonneg (Nat.cast_nonneg _) (Nat.cast_nonneg _)
  rw [ratioUnits_div]
  unfold value signed
  cases x.negative with
  | true =>
    refine le_trans ?_ (neg_le_abs _)
    simp only [if_true, Bool.not_true, Bool.false_eq_true, if_false]
    linarith
  | false =>
    refine le_trans ?_ (le_abs_self _)
    simp only [if_true, Bool.not_false, Bool.false_eq_true, if_false]
    linarith

/-- The error of rounding is that of the units. -/
theorem abs_ofRatio_sub (negative : Bool) (num den : Nat) :
    |(ofRatio negative num den).value - signed negative (num / den)| =
      |((ofRatio negative num den).units : ℚ) - ratioUnits num den| / unitsPerOne := by
  have own := abs_value_sub_same (ofRatio negative num den) num den
  rwa [negative_ofRatio] at own

/-- Whether a number is finite and no other finite number is nearer to a value. -/
structure IsNearest (v : Binary64) (y : ℚ) : Prop where
  finite : v.isFinite = true
  nearest : ∀ w : Binary64, w.isFinite = true → |v.value - y| ≤ |w.value - y|

/-- The number that a ratio is rounded to is nearest to it, if it is finite. -/
theorem ofRatio_nearest {negative : Bool} {num den : Nat} (positive : 0 < den)
    (finite : (ofRatio negative num den).isFinite = true) :
    IsNearest (ofRatio negative num den) (signed negative (num / den)) := by
  refine ⟨finite, fun w _ => ?_⟩
  have total : (0 : ℚ) ≤ unitsPerOne := Nat.cast_nonneg _
  rw [abs_ofRatio_sub]
  by_cases same : w.negative = negative
  · subst same
    rw [abs_value_sub_same]
    exact div_le_div_of_nonneg_right (units_ofRatio_nearest positive finite w) total
  · obtain rfl : negative = !w.negative := by
      cases negative <;> simpa using same
    -- Already zero is nearer than a number of the other sign.
    refine le_trans (div_le_div_of_nonneg_right ?_ total) (w.abs_value_sub_other num den)
    have zero := (units_ofRatio_near positive finite 0).1
    have nonneg : 0 ≤ ratioUnits num den := div_nonneg (Nat.cast_nonneg _) (Nat.cast_nonneg _)
    rwa [Nat.cast_zero, zero_mul, zero_sub, abs_neg, abs_of_nonneg nonneg] at zero

/-! ### Small ratios -/

/-- The last place of a ratio of at most a thousand is at most `2 ^ -43`. -/
theorem ratioScale_le {num den : Nat} (small : num ≤ 1000 * den) :
    ratioScale (num * unitsPerOne) den ≤ 1031 := by
  unfold ratioScale
  have quotient : num * unitsPerOne / den < pow2 1084 := by
    rcases Nat.eq_zero_or_pos den with rfl | positive
    · rw [Nat.div_zero]
      exact pow2_pos _
    · have power : pow2 1084 = pow2 10 * unitsPerOne := by rw [unitsPerOne, ← pow2_add]
      rw [Nat.div_lt_iff_lt_mul positive, power]
      calc num * unitsPerOne ≤ 1000 * den * unitsPerOne := Nat.mul_le_mul_right _ small
        _ = 1000 * (den * unitsPerOne) := Nat.mul_assoc _ _ _
        _ < pow2 10 * (den * unitsPerOne) :=
            Nat.mul_lt_mul_of_pos_right (by decide) (Nat.mul_pos positive unitsPerOne_pos)
        _ = pow2 10 * unitsPerOne * den := by ring
  generalize num * unitsPerOne / den = v at quotient
  rcases Nat.eq_zero_or_pos v with rfl | positive
  · simp
  · have least : pow2 (Nat.log2 v) ≤ v := Nat.log2_self_le positive.ne'
    have log := lt_of_pow2_lt (Nat.lt_of_le_of_lt least quotient)
    omega

/-- Ratios of moderate size are not rounded to infinity. -/
theorem isFinite_ofRatio (negative : Bool) {num den : Nat} (small : num ≤ 1000 * den) :
    (ofRatio negative num den).isFinite = true := by
  have scale := ratioScale_le small
  obtain ⟨most, -⟩ := ratioScale_bounds (num * unitsPerOne) den
  have form : ofRatio negative num den = ofMagnitude negative (min
      (ratioScale (num * unitsPerOne) den * leadingBit +
        divNearest (num * unitsPerOne) (den * pow2 (ratioScale (num * unitsPerOne) den)))
      (topField * leadingBit)) := rfl
  rw [form]
  generalize divNearest (num * unitsPerOne) (den * pow2 (ratioScale (num * unitsPerOne) den)) = n
    at most ⊢
  generalize ratioScale (num * unitsPerOne) den = k at scale ⊢
  have bound : min (k * leadingBit + n) (topField * leadingBit) < 1034 * leadingBit := by
    rw [leadingBit_eq] at most ⊢
    omega
  have field : (ofMagnitude negative (min (k * leadingBit + n) (topField * leadingBit))).field < 1034 := by
    rw [field, magnitude_ofMagnitude _ _ (Nat.lt_trans bound (by decide)),
      Nat.div_lt_iff_lt_mul (by decide)]
    exact bound
  rw [isFinite, bne_iff_ne]
  exact Nat.ne_of_lt (Nat.lt_trans field (by decide))

/-- The error for a ratio of at most a thousand. -/
theorem abs_ofRatio_sub_le (negative : Bool) {num den : Nat} (positive : 0 < den)
    (small : num ≤ 1000 * den) :
    |(ofRatio negative num den).value - signed negative (num / den)| ≤ 1 / 2 ^ 44 := by
  rw [abs_ofRatio_sub]
  have total : (0 : ℚ) < unitsPerOne := Nat.cast_pos.mpr unitsPerOne_pos
  have near := (units_ofRatio_near positive (isFinite_ofRatio negative small) 0).2
  have scale := ratioScale_le small
  generalize ratioScale (num * unitsPerOne) den = k at near scale
  have power : (pow2 k * 2 ^ 43 : ℚ) ≤ unitsPerOne := by
    have natural : pow2 k * pow2 43 ≤ unitsPerOne := by
      rw [unitsPerOne, ← pow2_add]
      exact pow2_le_pow2 (by omega)
    have cast : ((pow2 43 : Nat) : ℚ) = 2 ^ 43 := by norm_num [pow2_eq]
    rw [← cast, ← Nat.cast_mul]
    exact Nat.cast_le.mpr natural
  rw [div_le_iff₀ total]
  linarith

end Binary64

end Clausal
