import Clausal.Proofs.SimpleFractions

/-!
# Closest fractions

Of all fractions with denominators of at most a million one of the two candidates for a number is
closest to it. The preference between the two rests on computed distances, from a value with at most
62 binary places, so that the farther one may win. But then it is hardly farther away than the other.

## Main results

`Rivals.nearest`: one of the two candidates is closest.

`Rivals.distance_le`: a candidate with the smaller computed distance is hardly farther away.

`ofBinary64_closest_iff`: the fraction found for a number is closest to it unless the computed
distances prefer the farther candidate, and in any case it is nearly closest.
-/

namespace Clausal

namespace Fraction

/-- Whether no fraction with a denominator of at most `limit` is nearer to a value. -/
def IsClosest (limit : Int) (v : ℚ) (r : Fraction) : Prop :=
  ∀ p q : Int, 1 ≤ q → q ≤ limit → |r.value - v| ≤ |(p / q : ℚ) - v|

/-- How much farther away than a closest fraction the one that is found may be. -/
def excess (v : ℚ) : ℚ := (|v| + 1) / 2 ^ 61

/-! ### Two candidates on different sides -/

/-- Two fractions on different sides of a third one, as near to it as the limit allows. -/
def Rivals (limit : Nat) (target a b : Nat × Nat) : Prop :=
  Brackets limit target a b ∨ Brackets limit target b a

/-- A fraction that is hardly away from a value is closest to it. -/
theorem Admissible.nearest {a b : Nat × Nat} {m : ℚ} (given : Admissible 1000000 a)
    (near : |ratio a - m| ≤ 1 / 2 ^ 63) (positive : 0 < b.2) (within : b.2 ≤ 1000000) :
    |ratio a - m| ≤ |ratio b - m| := by
  rcases eq_or_ne (ratio a) (ratio b) with same | different
  · rw [same]
  · have apart := ratio_apart given positive within different
    have triangle := abs_sub_le (ratio a) m (ratio b)
    rw [abs_sub_comm m] at triangle
    linarith

namespace Brackets

variable {limit : Nat} {target lower upper : Nat × Nat}

/-- The ends of a bracket are as near to each other as the limit allows. -/
theorem ratio_le_add (given : Brackets limit target lower upper) (positive : 0 < limit) :
    ratio upper ≤ ratio lower + 1 / limit := by
  have lowerPos : (0 : ℚ) < lower.2 := Nat.cast_pos.mpr given.lower_pos
  have upperPos : (0 : ℚ) < upper.2 := Nat.cast_pos.mpr given.upper_pos
  have unimodular : (upper.1 * lower.2 : ℚ) = lower.1 * upper.2 + 1 := by
    exact_mod_cast given.unimodular
  have difference : ratio upper - ratio lower = 1 / (lower.2 * upper.2) := by
    rw [ratio, ratio, div_sub_div _ _ upperPos.ne' lowerPos.ne', unimodular]
    ring
  -- The denominators add up to more than the limit, so that their product reaches it.
  have product : limit ≤ lower.2 * upper.2 := by
    obtain ⟨l, lowerSucc⟩ := Nat.exists_eq_add_of_le' given.lower_pos
    obtain ⟨u, upperSucc⟩ := Nat.exists_eq_add_of_le' given.upper_pos
    have exhausted := given.exhausted
    rw [lowerSucc, upperSucc] at exhausted ⊢
    linarith [Nat.zero_le (l * u)]
  have least : (limit : ℚ) ≤ lower.2 * upper.2 := by exact_mod_cast product
  linarith [one_div_le_one_div_of_le (Nat.cast_pos.mpr positive) least]

/-- One end of a bracket is closest to a value that is hardly away from what is bracketed. -/
theorem nearest {b : Nat × Nat} {m : ℚ} (given : Brackets 1000000 target lower upper)
    (den_pos : 0 < target.2) (near : |ratio target - m| ≤ 1 / 2 ^ 63) (positive : 0 < b.2)
    (within : b.2 ≤ 1000000) :
    |ratio lower - m| ≤ |ratio b - m| ∨ |ratio upper - m| ≤ |ratio b - m| := by
  have above := given.ratio_lower_lt den_pos
  have below := given.ratio_lt_upper den_pos
  obtain ⟨least, most⟩ := abs_le.mp near
  have outside := given.not_between (p := b.1) (q := b.2) (by exact_mod_cast positive)
    (by exact_mod_cast within)
  have value : ((b.1 : Int) : ℚ) / ((b.2 : Int) : ℚ) = ratio b := by simp [ratio]
  rw [value, not_and_or, not_lt, not_lt] at outside
  -- The end on the side of the other fraction is nearer, or so near that it is closest anyway.
  rcases outside with beyond | beyond
  · left
    rcases le_or_gt (ratio lower) m with inside | past
    · rw [abs_of_nonpos (sub_nonpos.mpr inside), abs_of_nonpos (sub_nonpos.mpr (beyond.trans inside))]
      linarith
    · refine given.lower_admissible.nearest ?_ positive within
      rw [abs_of_pos (sub_pos.mpr past)]
      linarith
  · right
    rcases le_or_gt m (ratio upper) with inside | past
    · rw [abs_of_nonneg (sub_nonneg.mpr inside), abs_of_nonneg (sub_nonneg.mpr (inside.trans beyond))]
      linarith
    · refine given.upper_admissible.nearest ?_ positive within
      rw [abs_of_neg (sub_neg.mpr past)]
      linarith

end Brackets

namespace Rivals

variable {limit : Nat} {target a b : Nat × Nat}

theorem symm (given : Rivals limit target a b) : Rivals limit target b a := Or.symm given

theorem admissible (given : Rivals limit target a b) : Admissible limit a :=
  given.elim Brackets.lower_admissible Brackets.upper_admissible

/-- The distances of both from what is between them add up to the distance of both. -/
theorem abs_add_abs_le (given : Rivals limit target a b) (positive : 0 < limit)
    (den_pos : 0 < target.2) :
    |ratio a - ratio target| + |ratio b - ratio target| ≤ 1 / limit := by
  have ends {lower upper : Nat × Nat} (given : Brackets limit target lower upper) :
      |ratio lower - ratio target| + |ratio upper - ratio target| ≤ 1 / limit := by
    rw [abs_of_neg (sub_neg.mpr (given.ratio_lower_lt den_pos)),
      abs_of_pos (sub_pos.mpr (given.ratio_lt_upper den_pos))]
    linarith [given.ratio_le_add positive]
  rcases given with given | given
  · exact ends given
  · exact (add_comm _ _).trans_le (ends given)

/-- One of the two is closest to a value that is hardly away from what is between them. -/
theorem nearest {other : Nat × Nat} {m : ℚ} (given : Rivals 1000000 target a b)
    (den_pos : 0 < target.2) (near : |ratio target - m| ≤ 1 / 2 ^ 63) (positive : 0 < other.2)
    (within : other.2 ≤ 1000000) :
    |ratio a - m| ≤ |ratio other - m| ∨ |ratio b - m| ≤ |ratio other - m| :=
  given.elim (fun lower => lower.nearest den_pos near positive within)
    fun upper => (upper.nearest den_pos near positive within).symm

/-- The one with the smaller computed distance is hardly farther away than the other. -/
theorem distance_le {m : ℚ} (given : Rivals 1000000 target a b) (den_pos : 0 < target.2)
    (near : |ratio target - m| ≤ 1 / 2 ^ 63)
    (preferred : (distance a target).value ≤ (distance b target).value) :
    |ratio a - m| ≤ |ratio b - m| + (m + 1) / 2 ^ 61 := by
  have sum := given.abs_add_abs_le (by decide) den_pos
  have bound {c : Nat × Nat} (away : |ratio c - ratio target| ≤ 1 / 1000000) :
      ratio c ≤ ratio target + 1 / 1000000 := by
    linarith [(abs_le.mp away).2]
  push_cast at sum
  have small := abs_nonneg (ratio a - ratio target)
  have large := abs_nonneg (ratio b - ratio target)
  have itself : ratio target ≤ ratio target + 1 / 1000000 := by linarith
  -- Both computed distances are off by little, and what is between the two is near to the value.
  have first := abs_distance_sub_le given.admissible.den_pos den_pos (bound (by linarith)) itself
  have second :=
    abs_distance_sub_le given.symm.admissible.den_pos den_pos (bound (by linarith)) itself
  have fromFirst := abs_sub_le (ratio a) (ratio target) m
  have fromSecond := abs_sub_le (ratio b) m (ratio target)
  rw [abs_sub_comm m] at fromSecond
  have rounded := (abs_le.mp near).2
  generalize |ratio a - ratio target| = s at *
  generalize |ratio b - ratio target| = l at *
  rw [abs_le] at first second
  norm_num [distancePrecision] at first second
  linarith [first.1, second.2]

end Rivals

/-! ### The preferred candidate -/

namespace Convergents

/-- The candidate that is taken: the one with the smaller computed distance. -/
def preferred (limit : Nat) (target : Nat × Nat) (c : Convergents) : Nat × Nat :=
  if (distance c.last target).le (distance (c.semi limit) target) then c.last else c.semi limit

/-- The candidate that is not taken. -/
def passedOver (limit : Nat) (target : Nat × Nat) (c : Convergents) : Nat × Nat :=
  if (distance c.last target).le (distance (c.semi limit) target) then c.semi limit else c.last

/-- The candidate that is taken has the smaller distance as computed, which need not be the smaller
distance. -/
theorem distance_preferred_le (limit : Nat) (target : Nat × Nat) (c : Convergents) :
    (distance (c.preferred limit target) target).value ≤
      (distance (c.passedOver limit target) target).value := by
  unfold preferred passedOver
  split
  next less => exact (Dyadic.le_iff _ _).mp less
  next more => exact (not_le.mp (mt (Dyadic.le_iff _ _).mpr more)).le

/-- Where the target has too large a denominator, the two candidates lie on different sides of
it. -/
theorem follow_rivals {limit : Nat} {target : Nat × Nat} (positive : 0 < limit)
    (coprime : target.1.Coprime target.2) (passes : limit < target.2) :
    let c := initial.follow limit target.1 target.2
    Rivals limit target (c.preferred limit target) (c.passedOver limit target) := by
  have candidates := follow_brackets positive coprime passes
  intro c
  unfold preferred passedOver
  split
  · exact candidates.symm
  · exact candidates

end Convergents

/-- Whether the candidate that is not taken for a number is nearer to it than the one that is. -/
def Misjudged (x : Binary64) : Prop :=
  let target := ofMagnitude x
  let c := Convergents.initial.follow 1000000 target.1 target.2
  1000000 < target.2 ∧ |ratio (c.passedOver 1000000 target) - (|x.value|)| <
    |ratio (c.preferred 1000000 target) - (|x.value|)|

/-- What is found for a number, against all fractions with denominators of at most a million. -/
theorem approximate_closest_iff (x : Binary64) :
    (∀ b : Nat × Nat, 0 < b.2 → b.2 ≤ 1000000 →
      |ratio (approximate 1000000 (ofMagnitude x)) - (|x.value|)| ≤ |ratio b - (|x.value|)|) ↔
      ¬ Misjudged x := by
  have coprime := ofMagnitude_coprime x
  have den_pos := ofMagnitude_den_pos x
  have near := abs_ratio_ofMagnitude_sub_le x
  unfold Misjudged
  generalize ofMagnitude x = target at coprime den_pos near ⊢
  rcases Nat.lt_or_ge 1000000 target.2 with passes | short
  · have rivals := Convergents.follow_rivals (by decide) coprime passes
    have taken : approximate 1000000 target = Convergents.preferred 1000000 target
        (Convergents.initial.follow 1000000 target.1 target.2) :=
      approximate_of_lt (by decide) coprime passes
    rw [taken]
    simp only [passes, true_and, not_lt] at rivals ⊢
    generalize Convergents.preferred _ _ _ = a at rivals ⊢
    generalize Convergents.passedOver _ _ _ = b at rivals ⊢
    constructor
    · intro closest
      exact closest b rivals.symm.admissible.den_pos rivals.symm.admissible.den_le
    · intro ahead other positive within
      exact (rivals.nearest den_pos near positive within).elim id ahead.trans
  · -- A target with a small denominator is taken as it is.
    rw [approximate, if_pos short]
    refine iff_of_true (fun b positive within => ?_) fun judged => absurd judged.1 (by omega)
    exact Admissible.nearest ⟨den_pos, short, coprime⟩ near positive within

/-- What is found for a number is hardly farther away than any other fraction. -/
theorem approximate_nearly_closest (x : Binary64) (b : Nat × Nat) (positive : 0 < b.2)
    (within : b.2 ≤ 1000000) :
    |ratio (approximate 1000000 (ofMagnitude x)) - (|x.value|)| ≤
      |ratio b - (|x.value|)| + excess x.value := by
  have coprime := ofMagnitude_coprime x
  have den_pos := ofMagnitude_den_pos x
  have near := abs_ratio_ofMagnitude_sub_le x
  have slack : 0 ≤ excess x.value := by
    unfold excess
    positivity
  generalize ofMagnitude x = target at coprime den_pos near ⊢
  rcases Nat.lt_or_ge 1000000 target.2 with passes | short
  · have rivals := Convergents.follow_rivals (by decide) coprime passes
    have preferred := rivals.distance_le den_pos near (Convergents.distance_preferred_le _ _ _)
    rw [approximate_of_lt (by decide) coprime passes]
    rcases rivals.nearest den_pos near positive within with nearer | nearer
    · exact nearer.trans (le_add_of_nonneg_right slack)
    · exact preferred.trans (add_le_add_left nearer _)
  · rw [approximate, if_pos short]
    exact (Admissible.nearest ⟨den_pos, short, coprime⟩ near positive within).trans
      (le_add_of_nonneg_right slack)

/-! ### Numbers with a sign -/

/-- A fraction with the sign of a number is as far away as the magnitudes are. -/
theorem abs_value_signed_sub (x : Binary64) (a : Nat × Nat) :
    |value ⟨if x.negative then -(a.1 : Int) else a.1, a.2⟩ - x.value| = |ratio a - (|x.value|)| := by
  rw [x.abs_value]
  unfold value ratio Binary64.value
  split
  · push_cast
    rw [neg_div, neg_sub_neg, abs_sub_comm]
  · push_cast
    rfl

/-- The magnitude of a fraction is at least as near to that of a value. -/
theorem exists_magnitude {limit : Nat} {p q : Int} (v : ℚ) (positive : 1 ≤ q) (within : q ≤ limit) :
    ∃ b : Nat × Nat, 0 < b.2 ∧ b.2 ≤ limit ∧ |ratio b - (|v|)| ≤ |(p / q : ℚ) - v| := by
  refine ⟨(p.natAbs, q.toNat), by simp only; omega, by simp only; omega, ?_⟩
  have den : ((q.toNat : Nat) : ℚ) = q := by exact_mod_cast Int.toNat_of_nonneg (by omega : 0 ≤ q)
  have sign : (0 : ℚ) < q := by exact_mod_cast positive
  have magnitude : ratio (p.natAbs, q.toNat) = |(p / q : ℚ)| := by
    rw [ratio, den, Nat.cast_natAbs, Int.cast_abs, abs_div, abs_of_pos sign]
  rw [magnitude]
  exact abs_abs_sub_abs_le _ _

/-- The fraction found for a finite number in range is hardly farther away from it than any fraction
with a denominator of at most a million. It is closest among these if and only if the computed
distances did not prefer the farther one of the two candidates. -/
theorem ofBinary64_closest_iff (x : Binary64) (finite : x.isFinite = true)
    (inRange : |x.value| < rangeLimit) :
    ∃ r, ofBinary64 defaultLimit x = .ok r ∧
      (∀ p q : Int, 1 ≤ q → q ≤ defaultLimit →
        |r.value - x.value| ≤ |(p / q : ℚ) - x.value| + excess x.value) ∧
      (IsClosest defaultLimit x.value r ↔ ¬ Misjudged x) := by
  have default : defaultLimit = (1000000 : Nat) := rfl
  refine ⟨_, ofBinary64_eq finite inRange (by decide), fun p q positive within => ?_, ?_⟩
  · obtain ⟨b, den_pos, den_le, nearer⟩ := exists_magnitude (p := p) x.value positive within
    rw [abs_value_signed_sub]
    exact (approximate_nearly_closest x b den_pos den_le).trans (add_le_add_left nearer _)
  · rw [← approximate_closest_iff, IsClosest]
    simp only [abs_value_signed_sub]
    constructor
    · intro closest b positive within
      refine (closest (if x.negative then -(b.1 : Int) else b.1) b.2 (by omega) (by omega)).trans ?_
      exact (abs_value_signed_sub x b).le
    · intro closest p q positive within
      obtain ⟨b, den_pos, den_le, nearer⟩ := exists_magnitude (p := p) x.value positive within
      exact (closest b den_pos den_le).trans nearer

theorem ofBinary64_closest_iff_circle :
    circleRatio.isFinite = true ∧ |circleRatio.value| < rangeLimit ∧
      ofBinary64 defaultLimit circleRatio = .ok ⟨3126535, 995207⟩ ∧
      IsClosest defaultLimit circleRatio.value ⟨3126535, 995207⟩ := by
  have found : ofBinary64 defaultLimit circleRatio = .ok ⟨3126535, 995207⟩ := by decide +kernel
  have judged : ¬ Misjudged circleRatio := by
    unfold Misjudged
    decide +kernel
  obtain ⟨r, same, -, closest⟩ := ofBinary64_closest_iff circleRatio rfl circleRatio_inRange
  obtain rfl := Except.ok.inj (found.symm.trans same)
  exact ⟨rfl, circleRatio_inRange, found, closest.mpr judged⟩

/-- The number nearest to `800000000.21`. -/
private def largeNumber : Binary64 := ⟨0x41C7D784001AE148⟩

/-- For a number of this size quotients are computed to `2 ^ -34` only. Both candidates have the same
computed distance, and the one that is taken is three times as far away as the other. -/
theorem ofBinary64_misses_closest :
    largeNumber.isFinite = true ∧ |largeNumber.value| < rangeLimit ∧
      ofBinary64 defaultLimit largeNumber = .ok ⟨209695200055045, 262119⟩ ∧
      ¬ IsClosest defaultLimit largeNumber.value ⟨209695200055045, 262119⟩ := by
  have inRange : |largeNumber.value| < rangeLimit := (units_lt_iff _).mp (by decide +kernel)
  refine ⟨rfl, inRange, by decide +kernel, fun closest => ?_⟩
  have exact : largeNumber.value = 838860800220201 / 1048576 := by decide +kernel
  have nearer := closest 629165600165156 786457 (by decide) (by decide)
  rw [exact, value] at nearer
  norm_num [abs_of_pos, abs_of_neg] at nearer

end Fraction

end Clausal
