import Clausal.Proofs.Convergents
import Clausal.Proofs.Rounding
import Mathlib.Algebra.Order.Round
import Mathlib.Data.Nat.Cast.Field
import Mathlib.Data.Nat.Prime.Basic
import Mathlib.Data.Rat.Floor

/-!
# Fractions near to numbers

The value of a double precision number is a rational number, which is rounded to 62 binary places
where it has more. The fraction that is found for it has a denominator within the limit, is in lowest
terms, and is a neighbour of the rounded value: no fraction within the limit lies between them.

## Main results

`ratio_ofMagnitude`: the binary fraction that a number is expanded from is its rounded magnitude.

`ofBinary64_neighbour`: the fraction found for a number is a neighbour of the rounded value.
-/

namespace Clausal

theorem dvd_pow2_of_le {d m n : Nat} (divides : d ∣ pow2 m) (less : d ≤ pow2 n) : d ∣ pow2 n := by
  obtain ⟨k, -, rfl⟩ := (Nat.dvd_prime_pow Nat.prime_two).mp divides
  exact pow2_dvd_pow2 ((Nat.pow_le_pow_iff_right (by decide)).mp less)

/-! ### Values -/

def Binary64.value (x : Binary64) : ℚ :=
  let magnitude : ℚ := x.units / unitsPerOne
  if x.negative then -magnitude else magnitude

/-- The value rounded to a number of binary places, a tie going away from zero. -/
def roundedTo (places : Nat) (v : ℚ) : ℚ :=
  let magnitude : ℚ := round (|v| * 2 ^ places) / 2 ^ places
  if v < 0 then -magnitude else magnitude

namespace Binary64

theorem unitsPerOne_pos : 0 < unitsPerOne := pow2_pos 1074

theorem magnitude_nonneg (x : Binary64) : (0 : ℚ) ≤ x.units / unitsPerOne :=
  div_nonneg (Nat.cast_nonneg _) (Nat.cast_nonneg _)

theorem abs_value (x : Binary64) : |x.value| = x.units / unitsPerOne := by
  unfold value
  split
  · rw [abs_neg, abs_of_nonneg x.magnitude_nonneg]
  · rw [abs_of_nonneg x.magnitude_nonneg]

/-- A zero is not negative, whatever its sign bit. -/
theorem value_neg_iff (x : Binary64) : x.value < 0 ↔ x.negative = true ∧ x.units ≠ 0 := by
  have total : (0 : ℚ) < unitsPerOne := by exact_mod_cast unitsPerOne_pos
  unfold value
  split
  next negative =>
    rw [neg_lt_zero, div_pos_iff_of_pos_right total, Nat.cast_pos, Nat.pos_iff_ne_zero]
    exact (and_iff_right negative).symm
  next positive =>
    exact iff_of_false (not_lt.mpr x.magnitude_nonneg) fun both => positive both.1

end Binary64

/-- A number with few enough places is not changed. -/
theorem roundedTo_eq_self {places : Nat} {v : ℚ} {n : Nat} (whole : |v| * 2 ^ places = n) :
    roundedTo places v = v := by
  have magnitude : (round (|v| * 2 ^ places) : ℚ) / 2 ^ places = |v| := by
    rw [whole, round_natCast, Int.cast_natCast, ← whole]
    field_simp
  unfold roundedTo
  rw [magnitude]
  split
  next negative => rw [abs_of_neg negative, neg_neg]
  next positive => rw [abs_of_nonneg (not_lt.mp positive)]

theorem rounded_nonneg (places : Nat) (v : ℚ) :
    (0 : ℚ) ≤ round (|v| * 2 ^ places) / 2 ^ places := by
  have whole : 0 ≤ round (|v| * 2 ^ places) := by
    rw [round_eq]
    positivity
  positivity

theorem abs_roundedTo (places : Nat) (v : ℚ) :
    |roundedTo places v| = round (|v| * 2 ^ places) / 2 ^ places := by
  have nonneg := rounded_nonneg places v
  unfold roundedTo
  split
  · rw [abs_neg, abs_of_nonneg nonneg]
  · rw [abs_of_nonneg nonneg]

theorem roundedTo_nonneg {places : Nat} {v : ℚ} (nonneg : 0 ≤ v) : 0 ≤ roundedTo places v := by
  rw [roundedTo, if_neg (not_lt.mpr nonneg)]
  exact rounded_nonneg places v

theorem roundedTo_nonpos {places : Nat} {v : ℚ} (nonpos : v ≤ 0) : roundedTo places v ≤ 0 := by
  rcases nonpos.lt_or_eq with negative | rfl
  · rw [roundedTo, if_pos negative]
    exact neg_nonpos.mpr (rounded_nonneg places v)
  · simp [roundedTo]

namespace Fraction

def value (r : Fraction) : ℚ := r.num / r.den

/-! ### Lowest terms -/

theorem lowestTerms_of_coprime {num den : Nat} (coprime : num.Coprime den) :
    lowestTerms num den = (num, den) := by
  simp [lowestTerms, coprime.gcd_eq_one]

theorem lowestTerms_coprime (num : Nat) {den : Nat} (positive : 0 < den) :
    (lowestTerms num den).1.Coprime (lowestTerms num den).2 :=
  Nat.coprime_div_gcd_div_gcd (Nat.gcd_pos_of_pos_right num positive)

theorem ratio_lowestTerms (num : Nat) {den : Nat} (positive : 0 < den) :
    ratio (lowestTerms num den) = num / den := by
  have divisor : (Nat.gcd num den : ℚ) ≠ 0 := by
    exact_mod_cast (Nat.gcd_pos_of_pos_right num positive).ne'
  rw [ratio, lowestTerms, Nat.cast_div (Nat.gcd_dvd_left num den) divisor,
    Nat.cast_div (Nat.gcd_dvd_right num den) divisor, div_div_div_cancel_right₀ divisor]

theorem lowestTerms_den_pos (num : Nat) {den : Nat} (positive : 0 < den) :
    0 < (lowestTerms num den).2 :=
  Nat.div_pos (Nat.gcd_le_right num positive) (Nat.gcd_pos_of_pos_right num positive)

/-- The denominator of a fraction in lowest terms. -/
theorem den_ratio {a : Nat × Nat} (coprime : a.1.Coprime a.2) (positive : 0 < a.2) :
    (ratio a).den = a.2 := by
  have den := Rat.den_div_eq_of_coprime (a := a.1) (b := a.2) (by exact_mod_cast positive)
    (by simpa using coprime)
  rw [Int.cast_natCast, Int.cast_natCast] at den
  exact Int.ofNat_inj.mp den

/-- Only one fraction in lowest terms has a given value. -/
theorem lowestTerms_eq {num den : Nat} {a : Nat × Nat} (positive : 0 < den) (den_pos : 0 < a.2)
    (coprime : a.1.Coprime a.2) (same : a.1 * den = num * a.2) : lowestTerms num den = a := by
  have value : ratio (lowestTerms num den) = ratio a := by
    rw [ratio_lowestTerms num positive, ratio,
      div_eq_div_iff (by exact_mod_cast positive.ne') (by exact_mod_cast den_pos.ne')]
    exact_mod_cast same.symm
  have denominators : (lowestTerms num den).2 = a.2 := by
    rw [← den_ratio (lowestTerms_coprime num positive) (lowestTerms_den_pos num positive), value,
      den_ratio coprime den_pos]
  have nonzero : (a.2 : ℚ) ≠ 0 := by exact_mod_cast den_pos.ne'
  rw [ratio, ratio, denominators, div_left_inj' nonzero] at value
  exact Prod.ext (by exact_mod_cast value) denominators

/-! ### Binary fractions -/

theorem binaryLimit_pos : 0 < binaryLimit := pow2_pos 62

/-- The fraction of a magnitude is in lowest terms, also where it was rounded. -/
theorem ofMagnitude_coprime (x : Binary64) : (ofMagnitude x).1.Coprime (ofMagnitude x).2 := by
  unfold ofMagnitude
  simp only
  split
  · exact lowestTerms_coprime _ Binary64.unitsPerOne_pos
  · exact lowestTerms_coprime _ binaryLimit_pos

theorem ofMagnitude_den_pos (x : Binary64) : 0 < (ofMagnitude x).2 := by
  unfold ofMagnitude
  simp only
  split
  · exact lowestTerms_den_pos _ Binary64.unitsPerOne_pos
  · exact lowestTerms_den_pos _ binaryLimit_pos

/-- Rounding a multiple of a quotient with a division of natural numbers. -/
theorem round_div_mul (n d k : Nat) (positive : 0 < d) :
    round ((n / d : ℚ) * k) = ((2 * n * k + d) / (2 * d) : Nat) := by
  have denominator : (d : ℚ) ≠ 0 := by exact_mod_cast positive.ne'
  have whole : (n / d : ℚ) * k + 1 / 2 = ((2 * n * k + d : Nat) : ℚ) / (2 * d : Nat) := by
    push_cast
    field_simp
  rw [round_eq, whole, Rat.floor_natCast_div_natCast]
  rfl

/-- A whole number is its own numerator. -/
theorem ofMagnitude_of_dvd {x : Binary64} (integral : Binary64.unitsPerOne ∣ x.units) :
    ofMagnitude x = (x.units / Binary64.unitsPerOne, 1) := by
  have total := Binary64.unitsPerOne_pos
  have exact : lowestTerms x.units Binary64.unitsPerOne = (x.units / Binary64.unitsPerOne, 1) :=
    lowestTerms_eq total one_pos (Nat.coprime_one_right _)
      (by rw [Nat.div_mul_cancel integral, Nat.mul_one])
  rw [ofMagnitude, exact]
  exact if_pos binaryLimit_pos

/-- A number is expanded from its magnitude, rounded to 62 places. -/
theorem ratio_ofMagnitude (x : Binary64) : ratio (ofMagnitude x) = |roundedTo 62 x.value| := by
  have total := Binary64.unitsPerOne_pos
  have limit : (binaryLimit : ℚ) = 2 ^ 62 := by norm_num [binaryLimit, pow2_eq]
  unfold ofMagnitude
  simp only
  split
  next short =>
    -- The denominator is a power of two, so that it divides the largest one allowed.
    obtain ⟨k, multiple⟩ : (lowestTerms x.units Binary64.unitsPerOne).2 ∣ binaryLimit :=
      dvd_pow2_of_le (Nat.div_dvd_of_dvd (Nat.gcd_dvd_right _ _)) short
    have exact := ratio_lowestTerms x.units total
    have denominator : ((lowestTerms x.units Binary64.unitsPerOne).2 : ℚ) ≠ 0 := by
      exact_mod_cast (lowestTerms_den_pos x.units total).ne'
    rw [exact, ← x.abs_value, roundedTo_eq_self (n := (lowestTerms x.units _).1 * k)]
    rw [x.abs_value, ← exact, ← limit, multiple, ratio]
    push_cast
    field_simp
  next long =>
    rw [ratio_lowestTerms _ binaryLimit_pos, abs_roundedTo, x.abs_value, ← limit,
      round_div_mul _ _ _ total, Int.cast_natCast]

/-! ### Neighbours -/

/-- Whether no fraction with a denominator of at most `limit` lies strictly between two numbers. -/
def NoneBetween (limit : Int) (a b : ℚ) : Prop :=
  ∀ p q : Int, 0 < q → q ≤ limit →
    ¬ (a < p / q ∧ (p / q : ℚ) < b) ∧ ¬ (b < p / q ∧ (p / q : ℚ) < a)

theorem NoneBetween.refl (limit : Int) (a : ℚ) : NoneBetween limit a a := by
  intro p q _ _
  exact ⟨fun both => lt_asymm both.1 both.2, fun both => lt_asymm both.1 both.2⟩

/-- Gaps between fractions are symmetric about zero. -/
theorem NoneBetween.neg {limit : Int} {a b : ℚ} (given : NoneBetween limit a b) :
    NoneBetween limit (-a) (-b) := by
  intro p q positive within
  have mirrored : ((-p : Int) : ℚ) / q = -(p / q) := by
    push_cast
    exact neg_div _ _
  have there := given (-p) q positive within
  rw [mirrored] at there
  exact ⟨fun both => there.2 ⟨lt_neg.mp both.2, neg_lt.mp both.1⟩,
    fun both => there.1 ⟨lt_neg.mp both.2, neg_lt.mp both.1⟩⟩

/-- A fraction within a limit that is as near to a number as it gets from one side. -/
structure IsNeighbour (limit : Int) (y : ℚ) (r : Fraction) : Prop where
  den_pos : 0 < r.den
  den_le : r.den ≤ limit
  coprime : r.num.natAbs.Coprime r.den
  between : NoneBetween limit r.value y
  exact : y.den ≤ limit → r.value = y

theorem IsNeighbour.neg {limit : Int} {y : ℚ} {num : Int} {den : Nat}
    (given : IsNeighbour limit y ⟨num, den⟩) : IsNeighbour limit (-y) ⟨-num, den⟩ := by
  have mirrored : value ⟨-num, den⟩ = -value ⟨num, den⟩ := by
    simp only [value]
    push_cast
    exact neg_div _ _
  refine ⟨given.den_pos, given.den_le, ?_, ?_, fun small => ?_⟩
  · simpa using given.coprime
  · rw [mirrored]
    exact given.between.neg
  · rw [mirrored, given.exact small]

namespace Brackets

variable {limit : Nat} {target lower upper : Nat × Nat}

theorem ratio_lower_lt (given : Brackets limit target lower upper) (positive : 0 < target.2) :
    ratio lower < ratio target := by
  have lowerPos : (0 : ℚ) < lower.2 := by exact_mod_cast given.lower_pos
  have targetPos : (0 : ℚ) < target.2 := by exact_mod_cast positive
  rw [ratio, ratio, div_lt_div_iff₀ lowerPos targetPos]
  exact_mod_cast given.above

theorem ratio_lt_upper (given : Brackets limit target lower upper) (positive : 0 < target.2) :
    ratio target < ratio upper := by
  have upperPos : (0 : ℚ) < upper.2 := by exact_mod_cast given.upper_pos
  have targetPos : (0 : ℚ) < target.2 := by exact_mod_cast positive
  rw [ratio, ratio, div_lt_div_iff₀ targetPos upperPos]
  exact_mod_cast given.below

theorem noneBetween_lower (given : Brackets limit target lower upper) (positive : 0 < target.2) :
    NoneBetween limit (ratio lower) (ratio target) := by
  intro p q den_pos within
  constructor
  · rintro ⟨more, less⟩
    exact given.not_between den_pos within ⟨more, less.trans (given.ratio_lt_upper positive)⟩
  · rintro ⟨more, less⟩
    exact lt_asymm (more.trans less) (given.ratio_lower_lt positive)

theorem noneBetween_upper (given : Brackets limit target lower upper) (positive : 0 < target.2) :
    NoneBetween limit (ratio upper) (ratio target) := by
  intro p q den_pos within
  constructor
  · rintro ⟨more, less⟩
    exact lt_asymm (more.trans less) (given.ratio_lt_upper positive)
  · rintro ⟨more, less⟩
    exact given.not_between den_pos within ⟨(given.ratio_lower_lt positive).trans more, less⟩

end Brackets

/-- Beyond the limit one of the two candidates is taken as it is. -/
theorem approximate_of_lt {limit : Nat} {target : Nat × Nat} (positive : 0 < limit)
    (coprime : target.1.Coprime target.2) (passes : limit < target.2) :
    let c := Convergents.initial.follow limit target.1 target.2
    approximate limit target =
      if (distance c.last target).le (distance (c.semi limit) target) then c.last
      else c.semi limit := by
  intro c
  obtain ⟨last, semi⟩ := Convergents.follow_admissible positive coprime passes
  rw [approximate, if_neg (Nat.not_le.mpr passes)]
  exact if_congr Iff.rfl (lowestTerms_of_coprime last.coprime) (lowestTerms_of_coprime semi.coprime)

/-- The numerator of an approximation does not exceed that of the target, so that it fits where the
target fits. -/
theorem approximate_num_le {limit : Nat} {target : Nat × Nat} (positive : 0 < limit)
    (coprime : target.1.Coprime target.2) : (approximate limit target).1 ≤ target.1 := by
  rcases Nat.lt_or_ge limit target.2 with passes | within
  · obtain ⟨last, semi⟩ := Convergents.follow_numerators positive coprime passes
    rw [approximate_of_lt positive coprime passes]
    split
    · exact last
    · exact semi
  · rw [approximate, if_pos within]

/-- The continued fraction leads to one of the two nearest fractions on either side of the
target. -/
theorem approximate_neighbour {limit : Nat} {target : Nat × Nat} (positive : 0 < limit)
    (coprime : target.1.Coprime target.2) (den_pos : 0 < target.2) :
    IsNeighbour limit (ratio target)
      ⟨(approximate limit target).1, (approximate limit target).2⟩ := by
  rcases Nat.lt_or_ge limit target.2 with passes | within
  · have beyond : ¬ ((ratio target).den : Int) ≤ limit := by
      rw [den_ratio coprime den_pos]
      exact_mod_cast Nat.not_le.mpr passes
    have near {a : Nat × Nat} (admissible : Admissible limit a)
        (between : NoneBetween limit (ratio a) (ratio target)) :
        IsNeighbour limit (ratio target) ⟨a.1, a.2⟩ :=
      ⟨admissible.den_pos, by exact_mod_cast admissible.den_le, by simpa using admissible.coprime,
        by simpa [value, ratio] using between, fun small => absurd small beyond⟩
    have lowerOne {lower upper : Nat × Nat} (given : Brackets limit target lower upper) :=
      near given.lower_admissible (given.noneBetween_lower den_pos)
    have upperOne {lower upper : Nat × Nat} (given : Brackets limit target lower upper) :=
      near given.upper_admissible (given.noneBetween_upper den_pos)
    rw [approximate_of_lt positive coprime passes]
    have candidates := Convergents.follow_brackets positive coprime passes
    split
    · exact candidates.elim upperOne lowerOne
    · exact candidates.elim lowerOne upperOne
  · rw [approximate, if_pos within]
    refine ⟨den_pos, by exact_mod_cast within, by simpa using coprime, ?_, fun _ => ?_⟩
    · simpa [value, ratio] using NoneBetween.refl limit (ratio target)
    · simp [value, ratio]

/-! ### Numbers -/

/-- A number is in range exactly if its value is. -/
theorem units_lt_iff (x : Binary64) :
    x.units < rangeLimit * Binary64.unitsPerOne ↔ |x.value| < rangeLimit := by
  have total : (0 : ℚ) < Binary64.unitsPerOne := by exact_mod_cast Binary64.unitsPerOne_pos
  rw [x.abs_value, div_lt_iff₀ total]
  exact_mod_cast Iff.rfl

/-- The number nearest to the ratio of a circle's circumference to its diameter. -/
def circleRatio : Binary64 := ⟨0x400921FB54442D18⟩

theorem circleRatio_inRange : |circleRatio.value| < rangeLimit :=
  (units_lt_iff _).mp (by decide +kernel)

/-- A finite number in range has a fraction within every positive limit. -/
theorem ofBinary64_eq {limit : Int} {x : Binary64} (finite : x.isFinite = true)
    (inRange : |x.value| < rangeLimit) (positive : 0 < limit) :
    ofBinary64 limit x =
      let found := approximate limit.toNat (ofMagnitude x)
      .ok ⟨if x.negative then -(found.1 : Int) else found.1, found.2⟩ := by
  have small := (units_lt_iff x).mpr inRange
  rw [ofBinary64, if_neg (by simp [finite]), if_neg (by omega), if_neg (Nat.not_le.mpr small)]

/-- The rounded value of a number has its sign. -/
theorem roundedTo_value (x : Binary64) :
    roundedTo 62 x.value =
      if x.negative then -ratio (ofMagnitude x) else ratio (ofMagnitude x) := by
  rw [ratio_ofMagnitude, abs_roundedTo, roundedTo]
  by_cases below : x.value < 0
  · rw [if_pos below, if_pos ((x.value_neg_iff.mp below).1)]
  · rw [if_neg below]
    split
    next negative =>
      -- Only the zero with a sign is left.
      have zero : x.units = 0 := by
        by_contra nonzero
        exact below (x.value_neg_iff.mpr ⟨negative, nonzero⟩)
      have none : |x.value| = 0 := by rw [x.abs_value, zero, Nat.cast_zero, zero_div]
      simp [none]
    next => rfl

/-- Every finite number in range has a fraction, and it is a neighbour of the number rounded to 62
places. -/
theorem ofBinary64_neighbour {limit : Int} {x : Binary64} (finite : x.isFinite = true)
    (inRange : |x.value| < rangeLimit) (positive : 0 < limit) :
    ∃ r, ofBinary64 limit x = .ok r ∧ IsNeighbour limit (roundedTo 62 x.value) r := by
  refine ⟨_, ofBinary64_eq finite inRange positive, ?_⟩
  have near : IsNeighbour limit.toNat _ _ :=
    approximate_neighbour (by omega) (ofMagnitude_coprime x) (ofMagnitude_den_pos x)
  rw [Int.toNat_of_nonneg (by omega)] at near
  rw [roundedTo_value]
  split
  · exact near.neg
  · exact near

namespace IsNeighbour

variable {limit : Int} {y : ℚ} {r : Fraction}

theorem den_value (given : IsNeighbour limit y r) : r.value.den = r.den := by
  have den := Rat.den_div_eq_of_coprime (a := r.num) (b := r.den)
    (by exact_mod_cast given.den_pos) (by simpa using given.coprime)
  rw [Int.cast_natCast] at den
  exact Int.ofNat_inj.mp den

theorem num_value (given : IsNeighbour limit y r) : r.value.num = r.num := by
  have num := Rat.num_div_eq_of_coprime (a := r.num) (b := r.den)
    (by exact_mod_cast given.den_pos) (by simpa using given.coprime)
  rwa [Int.cast_natCast] at num

/-- Zero is within every limit, so that a neighbour is on the same side of it. -/
theorem pos_of_num_pos (given : IsNeighbour limit y r) (positive : 0 < limit) (sign : 0 < r.num) :
    0 < y := by
  have value : 0 < r.value := by
    rw [← Rat.num_pos, given.num_value]
    exact sign
  have apart := (given.between 0 1 one_pos positive).2
  simp only [Int.cast_zero, zero_div, not_and, not_lt] at apart
  rcases lt_trichotomy y 0 with below | zero | above
  · exact absurd (apart below) (not_le.mpr value)
  · rw [given.exact (by simpa [zero] using Int.add_one_le_of_lt positive)] at value
    exact value
  · exact above

/-- The sign of the fraction is that of the number. -/
theorem neg_of_num_neg (given : IsNeighbour limit y r) (positive : 0 < limit) (sign : r.num < 0) :
    y < 0 := by
  have mirrored := given.neg.pos_of_num_pos positive (neg_pos.mpr sign)
  exact neg_pos.mp mirrored

/-- The neighbour of an integer is that integer. -/
theorem den_eq_one (given : IsNeighbour limit y r) (positive : 0 < limit) (integral : y.den = 1) :
    r.den = 1 := by
  rw [← given.den_value, given.exact (by rw [integral]; exact Int.add_one_le_of_lt positive), integral]

end IsNeighbour

end Fraction

namespace Binary64

/-- Numbers of at least `2 ^ 52` are integers. -/
theorem unitsPerOne_dvd_of_le {x : Binary64} (large : (2 : ℚ) ^ 52 ≤ |x.value|) :
    unitsPerOne ∣ x.units := by
  have total : (0 : ℚ) < unitsPerOne := by exact_mod_cast unitsPerOne_pos
  rw [x.abs_value, le_div_iff₀ total] at large
  have product : ((pow2 52 * unitsPerOne : Nat) : ℚ) ≤ x.units := by
    rw [Nat.cast_mul, pow2_eq, Nat.cast_pow, Nat.cast_ofNat]
    exact large
  have least : pow2 52 * unitsPerOne ≤ x.units := Nat.cast_le.mp product
  rw [unitsPerOne, ← pow2_add] at least
  have most : x.units < pow2 (53 + x.scale) := by
    rw [pow2_add]
    exact Nat.mul_lt_mul_of_pos_right x.significand_lt (pow2_pos _)
  have scale := lt_of_pow2_lt (Nat.lt_of_le_of_lt least most)
  exact Dvd.dvd.mul_left (pow2_dvd_pow2 (by omega)) _

theorem den_roundedTo {x : Binary64} (integral : unitsPerOne ∣ x.units) (places : Nat) :
    (roundedTo places x.value).den = 1 := by
  obtain ⟨k, multiple⟩ := integral
  have total : (unitsPerOne : ℚ) ≠ 0 := by exact_mod_cast unitsPerOne_pos.ne'
  have magnitude : (x.units / unitsPerOne : ℚ) = k := by
    rw [multiple, Nat.cast_mul, mul_div_cancel_left₀ _ total]
  rw [roundedTo_eq_self (n := k * 2 ^ places) (by rw [x.abs_value, magnitude]; push_cast; rfl)]
  unfold value
  rw [magnitude]
  split <;> simp

end Binary64

end Clausal
