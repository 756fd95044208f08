import Clausal.Proofs.Distances
import Clausal.Proofs.Numerals
import Clausal.Proofs.ProverProblems
import Clausal.Token.Numeral

/-!
# Simple fractions are recovered

A fraction with a denominator of at most a million and a magnitude of at most a thousand is so far from
all other such fractions that it can be told from the nearest number of the format: the continued
fraction leads to it, and the computed distances are exact enough to prefer it.

## Main results

`approximate_near`: the fraction that is found for one nearby.

`ofBinary64_of_near`: the fraction that is found for a number nearby.

`Decimal.toBinary64_nearest`: decimals that are neither huge nor tiny are read as nearest numbers.

`ofBinary64_recovers`: nearest numbers and short decimals are turned into the fractions that they
stand for.
-/

namespace Clausal

namespace Fraction

/-! ### Fractions far from each other -/

/-- Different fractions with denominators of at most a million are at least `10 ^ -12` apart. -/
theorem ratio_apart {a b : Nat × Nat} (left : Admissible 1000000 a) (positive : 0 < b.2)
    (right : b.2 ≤ 1000000) (different : ratio a ≠ ratio b) :
    1 / 10 ^ 12 ≤ |ratio a - ratio b| := by
  have first : (0 : ℚ) < a.2 := Nat.cast_pos.mpr left.den_pos
  have second : (0 : ℚ) < b.2 := Nat.cast_pos.mpr positive
  have difference : ratio a - ratio b = ((a.1 * b.2 - b.1 * a.2 : Int) : ℚ) / (a.2 * b.2) := by
    rw [ratio, ratio, div_sub_div _ _ first.ne' second.ne']
    push_cast
    ring
  have nonzero : (a.1 * b.2 - b.1 * a.2 : Int) ≠ 0 := by
    intro zero
    rw [zero, Int.cast_zero, zero_div, sub_eq_zero] at difference
    exact different difference
  have product : (a.2 * b.2 : ℚ) ≤ 10 ^ 12 := by
    have natural : a.2 * b.2 ≤ 1000000 * 1000000 := Nat.mul_le_mul left.den_le right
    exact_mod_cast natural
  rw [difference, abs_div, abs_of_pos (mul_pos first second)]
  exact div_le_div₀ (abs_nonneg _) (one_le_abs_intCast nonzero) (mul_pos first second) product

/-- The ends of a bracket are at most one apart. -/
theorem Brackets.ratio_le {limit : Nat} {target lower upper : Nat × Nat}
    (given : Brackets limit target lower upper) : ratio upper ≤ ratio lower + 1 := by
  have lowerPos : (0 : ℚ) < lower.2 := Nat.cast_pos.mpr given.lower_pos
  have upperPos : (0 : ℚ) < upper.2 := Nat.cast_pos.mpr given.upper_pos
  have unimodular : (upper.1 * lower.2 : ℚ) = lower.1 * upper.2 + 1 := by
    exact_mod_cast given.unimodular
  have least : (1 : ℚ) ≤ lower.2 * upper.2 := by
    exact_mod_cast Nat.mul_pos given.lower_pos given.upper_pos
  rw [ratio, ratio, div_add_one lowerPos.ne', div_le_div_iff₀ upperPos lowerPos]
  linarith

/-- One of two candidates that bracket a fraction is the simple one nearby, and the other is not. -/
theorem Brackets.simple {target lower upper simple : Nat × Nat}
    (given : Brackets 1000000 target lower upper) (den_pos : 0 < target.2) (positive : 0 < simple.2)
    (within : simple.2 ≤ 1000000) (near : |ratio target - ratio simple| ≤ 1 / 10 ^ 13) :
    ratio lower = ratio simple ∨ ratio upper = ratio simple := by
  have above := given.ratio_lower_lt den_pos
  have below := given.ratio_lt_upper den_pos
  obtain ⟨least, most⟩ := abs_le.mp near
  have outside := given.not_between (p := simple.1) (q := simple.2) (by exact_mod_cast positive)
    (by exact_mod_cast within)
  have value : ((simple.1 : Int) : ℚ) / ((simple.2 : Int) : ℚ) = ratio simple := by
    simp [ratio]
  rw [value, not_and_or, not_lt, not_lt] at outside
  -- A candidate on the far side of the simple fraction would be nearer to it than it can be.
  rcases outside with beyond | beyond
  · left
    by_contra different
    have apart := ratio_apart given.lower_admissible positive within different
    rw [abs_of_nonneg (sub_nonneg.mpr beyond)] at apart
    linarith
  · right
    by_contra different
    have apart := ratio_apart given.upper_admissible positive within different
    rw [abs_of_nonpos (sub_nonpos.mpr beyond)] at apart
    linarith

/-- The computed distances tell a fraction at most `10 ^ -13` away from one that is not. -/
theorem distance_lt {near far target : Nat × Nat} (nearPos : 0 < near.2) (farPos : 0 < far.2)
    (targetPos : 0 < target.2) (moderate : ratio near ≤ 1000) (next : ratio far ≤ 1001)
    (close : |ratio near - ratio target| ≤ 1 / 10 ^ 13)
    (apart : 1 / 10 ^ 12 ≤ |ratio far - ratio near|) :
    (distance near target).value < (distance far target).value := by
  have within : ratio target ≤ 2000 := by
    linarith [(abs_le.mp close).1]
  have first := abs_distance_sub_le nearPos targetPos (by linarith) within
  have second := abs_distance_sub_le farPos targetPos (by linarith) within
  have away : 9 / 10 ^ 13 ≤ |ratio far - ratio target| := by
    have triangle := abs_sub_le (ratio far) (ratio target) (ratio near)
    rw [abs_sub_comm (ratio target)] at triangle
    linarith
  generalize |ratio near - ratio target| = small at first close
  generalize |ratio far - ratio target| = large at second away
  rw [abs_le] at first second
  norm_num [distancePrecision] at first second
  linarith [first.2, second.1]

/-- A simple fraction is found for every fraction nearby. -/
theorem approximate_near {target simple : Nat × Nat} (coprime : target.1.Coprime target.2)
    (den_pos : 0 < target.2) (positive : 0 < simple.2) (within : simple.2 ≤ 1000000)
    (moderate : ratio simple ≤ 1000) (near : |ratio target - ratio simple| ≤ 1 / 10 ^ 13) :
    approximate 1000000 target = lowestTerms simple.1 simple.2 := by
  have reduced {a : Nat × Nat} (admissible : Admissible 1000000 a) (same : ratio a = ratio simple) :
      a = lowestTerms simple.1 simple.2 := by
    have first : (a.2 : ℚ) ≠ 0 := Nat.cast_ne_zero.mpr admissible.den_pos.ne'
    have second : (simple.2 : ℚ) ≠ 0 := Nat.cast_ne_zero.mpr positive.ne'
    rw [ratio, ratio, div_eq_div_iff first second] at same
    exact (lowestTerms_eq positive admissible.den_pos admissible.coprime (by exact_mod_cast same)).symm
  rcases Nat.lt_or_ge 1000000 target.2 with passes | short
  · rw [approximate_of_lt (by decide) coprime passes]
    have candidates := Convergents.follow_brackets (by decide) coprime passes
    have admissible := Convergents.follow_admissible (by decide) coprime passes
    generalize Convergents.initial.follow 1000000 target.1 target.2 = c at candidates admissible ⊢
    obtain ⟨last, semi⟩ := admissible
    have ends : (ratio c.last = ratio simple ∨ ratio (c.semi 1000000) = ratio simple) ∧
        ratio c.last ≠ ratio (c.semi 1000000) ∧ ratio c.last ≤ ratio (c.semi 1000000) + 1 ∧
        ratio (c.semi 1000000) ≤ ratio c.last + 1 := by
      rcases candidates with given | given
      · have less := (given.ratio_lower_lt den_pos).trans (given.ratio_lt_upper den_pos)
        exact ⟨(given.simple den_pos positive within near).symm, less.ne', given.ratio_le, by linarith⟩
      · have less := (given.ratio_lower_lt den_pos).trans (given.ratio_lt_upper den_pos)
        exact ⟨given.simple den_pos positive within near, less.ne, by linarith, given.ratio_le⟩
    obtain ⟨isSimple | isSimple, different, left, right⟩ := ends
    · have apart := ratio_apart semi last.den_pos last.den_le different.symm
      have closer := distance_lt last.den_pos semi.den_pos den_pos (isSimple ▸ moderate)
        (by linarith) (by rw [isSimple, abs_sub_comm]; exact near) apart
      rw [if_pos ((Dyadic.le_iff _ _).mpr closer.le)]
      exact reduced last isSimple
    · have apart := ratio_apart last semi.den_pos semi.den_le different
      have closer := distance_lt semi.den_pos last.den_pos den_pos (isSimple ▸ moderate)
        (by linarith) (by rw [isSimple, abs_sub_comm]; exact near) apart
      rw [if_neg fun le => not_le.mpr closer ((Dyadic.le_iff _ _).mp le)]
      exact reduced semi isSimple
  · have admissible : Admissible 1000000 target := ⟨den_pos, short, coprime⟩
    rw [approximate, if_pos short]
    refine reduced admissible ?_
    by_contra different
    linarith [ratio_apart admissible positive within different]

/-! ### Numbers near simple fractions -/

/-- A number is expanded from a fraction at most `2 ^ -63` away. -/
theorem abs_ratio_ofMagnitude_sub_le (x : Binary64) :
    |ratio (ofMagnitude x) - (|x.value|)| ≤ 1 / 2 ^ 63 := by
  have rounding := abs_sub_round (|x.value| * 2 ^ 62)
  rw [abs_mul_sub (by positivity)] at rounding
  rw [ratio_ofMagnitude, abs_roundedTo, abs_sub_comm]
  linarith

theorem abs_num_div_den (y : ℚ) : |(y.num : ℚ)| / y.den = |y| := by
  have positive : (0 : ℚ) < y.den := Nat.cast_pos.mpr y.den_pos
  rw [← abs_of_pos positive, ← abs_div, Rat.num_div_den]

/-- A number near to a fraction other than zero has its sign. -/
theorem negative_iff_of_near {x : Binary64} {y : ℚ} (den : y.den ≤ 1000000) (nonzero : y ≠ 0)
    (near : |x.value - y| ≤ 1 / 2 ^ 44) : x.negative = true ↔ y < 0 := by
  have away : 1 / 10 ^ 6 ≤ |y| := by
    have positive : (0 : ℚ) < y.den := Nat.cast_pos.mpr y.den_pos
    have most : (y.den : ℚ) ≤ 10 ^ 6 := by exact_mod_cast den
    have whole := one_le_abs_intCast (Rat.num_ne_zero.mpr nonzero)
    rw [← abs_num_div_den y]
    exact div_le_div₀ (abs_nonneg _) whole positive most
  have magnitude := x.magnitude_nonneg
  obtain ⟨least, most⟩ := abs_le.mp near
  unfold Binary64.value at least most
  constructor
  · intro negative
    by_contra nonneg
    rw [abs_of_nonneg (not_lt.mp nonneg)] at away
    rw [if_pos negative] at least
    linarith
  · intro below
    by_contra positive
    rw [abs_of_neg below] at away
    rw [if_neg positive] at most
    linarith

/-- A simple fraction is found for every number nearby. -/
theorem ofBinary64_of_near {x : Binary64} {y : ℚ} (finite : x.isFinite = true)
    (den : y.den ≤ 1000000) (moderate : |y| ≤ 1000) (near : |x.value - y| ≤ 1 / 2 ^ 44) :
    ofBinary64 defaultLimit x = .ok ⟨y.num, y.den⟩ := by
  have magnitude : ratio (y.num.natAbs, y.den) = |y| := by
    rw [ratio, Nat.cast_natAbs, Int.cast_abs, abs_num_div_den]
  have values : |(|x.value|) - (|y|)| ≤ 1 / 2 ^ 44 := (abs_abs_sub_abs_le _ _).trans near
  have inRange : |x.value| < rangeLimit := by
    have limit : ((rangeLimit : Nat) : ℚ) = 9200000000000000000 := by norm_num [rangeLimit]
    rw [limit]
    linarith [(abs_le.mp values).2]
  have found : approximate 1000000 (ofMagnitude x) = (y.num.natAbs, y.den) := by
    rw [← lowestTerms_of_coprime y.reduced]
    refine approximate_near (ofMagnitude_coprime x) (ofMagnitude_den_pos x) y.den_pos den
      (by rw [magnitude]; exact moderate) ?_
    rw [magnitude]
    have triangle := abs_sub_le (ratio (ofMagnitude x)) (|x.value|) (|y|)
    linarith [abs_ratio_ofMagnitude_sub_le x]
  have sign : (if x.negative then -(y.num.natAbs : Int) else y.num.natAbs) = y.num := by
    by_cases zero : y = 0
    · simp [zero]
    · have numerator : y.num < 0 ↔ x.negative = true :=
        Rat.num_neg.trans (negative_iff_of_near den zero near).symm
      split
      next negative =>
        have below := numerator.mpr negative
        omega
      next positive =>
        have above := mt numerator.mp positive
        omega
  have default : defaultLimit.toNat = 1000000 := rfl
  rw [ofBinary64_eq finite inRange (by decide), default, found]
  simp only [sign]

end Fraction

/-! ### Nearest numbers -/

namespace Binary64

theorem abs_signed (negative : Bool) {y : ℚ} (nonneg : 0 ≤ y) : |signed negative y| = y := by
  cases negative with
  | true => exact (abs_neg y).trans (abs_of_nonneg nonneg)
  | false => exact abs_of_nonneg nonneg

theorem signed_natAbs_div (p : Int) (q : Nat) :
    signed (decide (p < 0)) (p.natAbs / q) = (p / q : ℚ) := by
  rw [signed, Nat.cast_natAbs, Int.cast_abs]
  by_cases below : p < 0
  · rw [if_pos (decide_eq_true below), abs_of_neg (Int.cast_lt_zero.mpr below), neg_div, neg_neg]
  · rw [if_neg (by simpa using below), abs_of_nonneg (Int.cast_nonneg (not_lt.mp below))]

theorem ofRatio_natAbs_nearest {p : Int} {q : Nat} (positive : 0 < q) (moderate : |p| ≤ 1000 * q) :
    IsNearest (ofRatio (decide (p < 0)) p.natAbs q) (p / q) := by
  rw [Int.abs_eq_natAbs] at moderate
  rw [← signed_natAbs_div]
  exact ofRatio_nearest positive (isFinite_ofRatio _ (by exact_mod_cast moderate))

/-- How far the nearest numbers to a value of at most a thousand are from it. -/
theorem IsNearest.near {x : Binary64} {y : ℚ} (given : x.IsNearest y) (moderate : |y| ≤ 1000) :
    |x.value - y| ≤ 1 / 2 ^ 44 := by
  have small : y.num.natAbs ≤ 1000 * y.den := by
    have positive : (0 : ℚ) < y.den := Nat.cast_pos.mpr y.den_pos
    rw [← Fraction.abs_num_div_den, div_le_iff₀ positive, ← Int.cast_abs, ← Nat.cast_natAbs]
      at moderate
    exact_mod_cast moderate
  have error := abs_ofRatio_sub_le (decide (y.num < 0)) y.den_pos small
  rw [signed_natAbs_div, Rat.num_div_den] at error
  exact (given.nearest _ (isFinite_ofRatio _ small)).trans error

end Binary64

/-! ### Decimals -/

namespace Decimal

def value (d : Decimal) : ℚ := d.digits * 10 ^ d.exponent

theorem value_eq_ratio (d : Decimal) :
    d.value = (d.digits * pow10 d.exponent.toNat : Nat) / (pow10 (-d.exponent).toNat : Nat) := by
  obtain ⟨k, same | same⟩ := Int.eq_nat_or_neg d.exponent
  · have down : (-(k : Int)).toNat = 0 := by omega
    rw [value, same, down, Int.toNat_natCast, zpow_natCast]
    simp [pow10]
  · have up : (-(k : Int)).toNat = 0 := by omega
    rw [value, same, up, neg_neg, Int.toNat_natCast, zpow_neg, zpow_natCast]
    simp [pow10, div_eq_mul_inv]

theorem value_nonneg (d : Decimal) : 0 ≤ d.value := by
  unfold value
  positivity

/-- A decimal with digits is between the powers of ten of its length. -/
theorem value_bounds (d : Decimal) (nonzero : d.digits ≠ 0) :
    (10 : ℚ) ^ (decimalLength d.digits + d.exponent - 1) ≤ d.value ∧
      d.value < 10 ^ (decimalLength d.digits + d.exponent) := by
  have power : (0 : ℚ) < 10 ^ d.exponent := by positivity
  obtain ⟨k, length⟩ : ∃ k, decimalLength d.digits = k + 1 :=
    Nat.exists_eq_add_of_le' (List.length_pos_iff.mpr (Nat.toDigits_ne_nil))
  have most : d.digits < 10 ^ (k + 1) := (decimalLength_le_iff _ _ (Nat.succ_pos k)).mp length.le
  have least : 10 ^ k ≤ d.digits := by
    rcases Nat.eq_zero_or_pos k with rfl | positive
    · exact Nat.pos_of_ne_zero nonzero
    · exact not_lt.mp (mt (decimalLength_le_iff _ _ positive).mpr (by omega))
  have before : ((k + 1 : Nat) : Int) + d.exponent - 1 = (k : Nat) + d.exponent := by omega
  rw [length, before, zpow_add₀ (by norm_num), zpow_add₀ (by norm_num), zpow_natCast, zpow_natCast,
    value, mul_le_mul_iff_left₀ power, mul_lt_mul_iff_left₀ power]
  exact ⟨by exact_mod_cast least, by exact_mod_cast most⟩

/-- A decimal that is neither huge nor tiny is rounded as the ratio that it is. -/
theorem toBinary64_eq_ofRatio (negative : Bool) (d : Decimal)
    (inRange : d.digits ≠ 0 → -330 ≤ decimalLength d.digits + d.exponent ∧
      decimalLength d.digits + d.exponent ≤ 310) :
    d.toBinary64 negative = .ofRatio negative (d.digits * pow10 d.exponent.toNat)
      (pow10 (-d.exponent).toNat) := by
  unfold toBinary64
  by_cases zero : d.digits = 0
  · have finite : (Binary64.zero negative).isFinite = true := by cases negative <;> rfl
    have none : (Binary64.zero negative).units = 0 := by cases negative <;> rfl
    have sign : (Binary64.zero negative).negative = negative := by cases negative <;> rfl
    have exact := Binary64.ofRatio_exact _ finite 0 (pow10 (-d.exponent).toNat) (pow10_pos _)
      (by rw [none, Nat.zero_mul, Nat.zero_mul])
    rw [sign] at exact
    simp only [zero, if_true, Nat.zero_mul, exact]
  · obtain ⟨least, most⟩ := inRange zero
    simp only [zero, if_false, if_neg (not_lt.mpr least), if_neg (not_lt.mpr most)]

/-- Short decimals are read as the nearest numbers. -/
theorem toBinary64_nearest (negative : Bool) {d : Decimal} (least : d.value = 0 ∨ 1 / 10 ^ 6 ≤ d.value)
    (most : d.value ≤ 1000) :
    Binary64.IsNearest (d.toBinary64 negative) (Binary64.signed negative d.value) := by
  have inRange (nonzero : d.digits ≠ 0) : -330 ≤ decimalLength d.digits + d.exponent ∧
      decimalLength d.digits + d.exponent ≤ 310 := by
    obtain ⟨lower, upper⟩ := d.value_bounds nonzero
    have base : (1 : ℚ) < 10 := by norm_num
    constructor
    · have positive : d.value ≠ 0 := (lt_of_lt_of_le (by positivity) lower).ne'
      have power : (10 : ℚ) ^ (-6 : Int) = 1 / 10 ^ 6 := by norm_num
      have above := (power.trans_le (least.resolve_left positive)).trans_lt upper
      rw [zpow_lt_zpow_iff_right₀ base] at above
      omega
    · have power : (10 : ℚ) ^ (3 : Int) = 1000 := by norm_num
      have below := lower.trans (most.trans power.ge)
      rw [zpow_le_zpow_iff_right₀ base] at below
      omega
  have denominator := pow10_pos (-d.exponent).toNat
  rw [value_eq_ratio, div_le_iff₀ (Nat.cast_pos.mpr denominator)] at most
  rw [toBinary64_eq_ofRatio negative d inRange, value_eq_ratio]
  exact Binary64.ofRatio_nearest denominator
    (Binary64.isFinite_ofRatio negative (by exact_mod_cast most))

end Decimal

def Numeral.Form.value (f : Form) : ℚ := Binary64.signed f.negative f.magnitude.value

/-- A numeral for a multiple of a millionth of at most a thousand is read as a nearest number. -/
theorem Numeral.floatAt_nearest {f : Form} {n : Int} (millionths : f.value = n / 10 ^ 6)
    (moderate : |(n / 10 ^ 6 : ℚ)| ≤ 1000) :
    ∃ x : Binary64, (∀ pos, floatAt pos f.text = .ok x) ∧ x.IsNearest (n / 10 ^ 6) := by
  have magnitude : f.magnitude.value = |(n / 10 ^ 6 : ℚ)| := by
    rw [← millionths, Form.value, Binary64.abs_signed _ f.magnitude.value_nonneg]
  have nearest : Binary64.IsNearest (f.magnitude.toBinary64 f.negative) f.value := by
    refine Decimal.toBinary64_nearest f.negative ?_ (magnitude ▸ moderate)
    rw [magnitude, abs_div, abs_of_pos (by positivity : (0 : ℚ) < 10 ^ 6)]
    rcases eq_or_ne n 0 with rfl | nonzero
    · left
      simp
    · right
      have whole := one_le_abs_intCast nonzero
      gcongr
  refine ⟨_, fun pos => ?_, millionths ▸ nearest⟩
  rw [floatAt, f.float?_text]
  exact if_pos nearest.finite

/-- Both provers write a float as its fraction. -/
theorem Prover.argument_float (prover : Prover) {x : Binary64} {r : Fraction}
    (found : Fraction.ofBinary64 Fraction.defaultLimit x = .ok r) :
    prover.argument (.const (.float x)) =
      .ok ("rational(" ++ Text.ofInt r.num ++ "," ++ Text.ofNat r.den ++ ")") := by
  have written : prover.argument (.const (.float x)) = FirstOrder.rational x := by
    cases prover <;> rfl
  rw [written, FirstOrder.rational, found]

namespace Fraction

theorem abs_div_le {p : Int} {q : Nat} (positive : 0 < q) (moderate : |p| ≤ 1000 * q) :
    |(p / q : ℚ)| ≤ 1000 := by
  have total : (0 : ℚ) < q := Nat.cast_pos.mpr positive
  rw [abs_div, abs_of_pos total, div_le_iff₀ total]
  exact_mod_cast moderate

/-- A simple fraction is found for the nearest numbers to it. -/
theorem ofBinary64_of_nearest {p : Int} {q : Nat} (positive : 0 < q) (within : q ≤ 1000000)
    (moderate : |p| ≤ 1000 * q) {x : Binary64} (nearest : x.IsNearest (p / q)) :
    ofBinary64 defaultLimit x = .ok ⟨(p / q : ℚ).num, (p / q : ℚ).den⟩ := by
  have divides : (p / q : ℚ).den ∣ q := by
    have integral := Rat.den_dvd p q
    rw [Rat.divInt_eq_div, Int.cast_natCast] at integral
    exact_mod_cast integral
  have small := abs_div_le positive moderate
  exact ofBinary64_of_near nearest.finite ((Nat.le_of_dvd positive divides).trans within) small
    (nearest.near small)

/-- The nearest numbers to a fraction with a denominator of at most a million and a magnitude of at
most a thousand are turned into that fraction, in lowest terms. So multiples of a millionth of such a
magnitude are written for the provers as their exact values, and the numerals for them are read as
nearest numbers. -/
theorem ofBinary64_recovers :
    (∀ (p : Int) (q : Nat), 1 ≤ q → q ≤ 1000000 → |p| ≤ 1000 * q →
      Binary64.IsNearest (.ofRatio (decide (p < 0)) p.natAbs q) (p / q) ∧
      ∀ x : Binary64, x.IsNearest (p / q) →
        ofBinary64 defaultLimit x = .ok ⟨(p / q : ℚ).num, (p / q : ℚ).den⟩) ∧
    ∀ n : Int, |n| ≤ 1000 * 10 ^ 6 →
      (∀ f : Numeral.Form, f.value = n / 10 ^ 6 →
        ∃ x : Binary64, (∀ pos, Numeral.floatAt pos f.text = .ok x) ∧ x.IsNearest (n / 10 ^ 6)) ∧
      ∀ x : Binary64, x.IsNearest (n / 10 ^ 6) → ∀ prover : Prover,
        prover.argument (.const (.float x)) = .ok ("rational(" ++
          Text.ofInt (n / 10 ^ 6 : ℚ).num ++ "," ++ Text.ofNat (n / 10 ^ 6 : ℚ).den ++ ")") := by
  constructor
  · intro p q positive within moderate
    exact ⟨Binary64.ofRatio_natAbs_nearest positive moderate,
      fun x => ofBinary64_of_nearest positive within moderate⟩
  · intro n moderate
    have million : (10 : ℚ) ^ 6 = (1000000 : Nat) := by norm_num
    refine ⟨fun f millionths => ?_, fun x nearest prover => ?_⟩
    · refine Numeral.floatAt_nearest millionths ?_
      rw [million]
      exact abs_div_le (by decide) moderate
    · rw [million] at nearest ⊢
      exact prover.argument_float (ofBinary64_of_nearest (by decide) le_rfl moderate nearest)

private def nineTenths : Numeral.Form :=
  ⟨true, "0", "9", none, by decide, List.all_eq_true.mp rfl, List.all_eq_true.mp rfl⟩

theorem ofBinary64_recovers_nineTenths :
    ofBinary64 defaultLimit (.ofRatio true 9 10) = .ok ⟨-9, 10⟩ ∧
    ∃ x : Binary64, (∀ pos, Numeral.floatAt pos "-0.9" = .ok x) ∧
      ∀ prover : Prover, prover.argument (.const (.float x)) = .ok "rational(-9,10)" := by
  have value : nineTenths.value = (-900000 : Int) / 10 ^ 6 := by
    have magnitude : nineTenths.magnitude = ⟨9, -1⟩ := by decide
    rw [Numeral.Form.value, magnitude, Decimal.value, Binary64.signed]
    norm_num [nineTenths]
  have lowest : ((-900000 : Int) / 10 ^ 6 : ℚ) = (-9 : Int) / (10 : Nat) := by norm_num
  have num : ((-9 : Int) / (10 : Nat) : ℚ).num = -9 := by decide +kernel
  have den : ((-9 : Int) / (10 : Nat) : ℚ).den = 10 := by decide +kernel
  obtain ⟨nearest, found⟩ := ofBinary64_recovers.1 (-9) 10 (by decide) (by decide) (by decide)
  obtain ⟨read, written⟩ := ofBinary64_recovers.2 (-900000) (by decide)
  obtain ⟨x, reads, close⟩ := read nineTenths value
  refine ⟨?_, x, reads, fun prover => ?_⟩
  · have recovered := found _ nearest
    rw [num, den] at recovered
    exact recovered
  · rw [written x close prover, lowest, num, den]
    rfl

end Fraction

end Clausal
