import Clausal.Number.Fraction
import Mathlib.Algebra.Order.Field.Rat
import Mathlib.Tactic.FieldSimp
import Mathlib.Tactic.Linarith
import Mathlib.Tactic.LinearCombination
import Mathlib.Tactic.Positivity
import Mathlib.Tactic.Ring

/-!
# Convergents with bounded denominators

The continued fraction of a fraction is followed while the denominators stay within a limit. Two
successive convergents have determinant one, and together with what is left of the expansion they
make up the fraction again. So the last convergent and the last semiconvergent lie on different sides
of the fraction, and they are so near to each other that no fraction with a denominator within the
limit lies between them.

## Main results

`follow_brackets`: the two candidates bracket a fraction whose own denominator passes the limit.

`Brackets.not_between`: no fraction within the limit lies between two such candidates.
-/

namespace Clausal.Fraction

def ratio (a : Nat × Nat) : ℚ := a.1 / a.2

/-- A fraction in lowest terms with a denominator within a limit. -/
structure Admissible (limit : Nat) (a : Nat × Nat) : Prop where
  den_pos : 0 < a.2
  den_le : a.2 ≤ limit
  coprime : a.1.Coprime a.2

/-! ### Brackets -/

/-- Two fractions within a limit, with a third one between them that they are as near to as the limit
allows. -/
structure Brackets (limit : Nat) (target lower upper : Nat × Nat) : Prop where
  lower_pos : 0 < lower.2
  upper_pos : 0 < upper.2
  lower_le : lower.2 ≤ limit
  upper_le : upper.2 ≤ limit
  unimodular : upper.1 * lower.2 = lower.1 * upper.2 + 1
  exhausted : limit < lower.2 + upper.2
  above : lower.1 * target.2 < target.1 * lower.2
  below : target.1 * upper.2 < upper.1 * target.2

namespace Brackets

variable {limit : Nat} {target lower upper : Nat × Nat}

theorem lower_admissible (given : Brackets limit target lower upper) : Admissible limit lower := by
  refine ⟨given.lower_pos, given.lower_le, Nat.dvd_one.mp ?_⟩
  rw [← Nat.dvd_add_right (Dvd.dvd.mul_right (Nat.gcd_dvd_left lower.1 lower.2) upper.2),
    ← given.unimodular]
  exact Dvd.dvd.mul_left (Nat.gcd_dvd_right _ _) _

theorem upper_admissible (given : Brackets limit target lower upper) : Admissible limit upper := by
  refine ⟨given.upper_pos, given.upper_le, Nat.dvd_one.mp ?_⟩
  rw [← Nat.dvd_add_right (Dvd.dvd.mul_left (Nat.gcd_dvd_right upper.1 upper.2) lower.1),
    ← given.unimodular]
  exact Dvd.dvd.mul_right (Nat.gcd_dvd_left _ _) _

/-- Between the two there is room for denominators of at least the sum of theirs only. -/
theorem not_between (given : Brackets limit target lower upper) {p q : ℤ} (positive : 0 < q)
    (within : q ≤ limit) : ¬ (ratio lower < p / q ∧ (p / q : ℚ) < ratio upper) := by
  rintro ⟨more, less⟩
  have lowerPos : (0 : ℚ) < lower.2 := by exact_mod_cast given.lower_pos
  have upperPos : (0 : ℚ) < upper.2 := by exact_mod_cast given.upper_pos
  have denominator : (0 : ℚ) < q := by exact_mod_cast positive
  rw [ratio, div_lt_div_iff₀ lowerPos denominator] at more
  rw [ratio, div_lt_div_iff₀ denominator upperPos] at less
  have left : lower.1 * q + 1 ≤ p * lower.2 := by exact_mod_cast more
  have right : p * upper.2 + 1 ≤ upper.1 * q := by exact_mod_cast less
  have unimodular : (upper.1 * lower.2 : ℤ) = lower.1 * upper.2 + 1 := by
    exact_mod_cast given.unimodular
  have exhausted : (limit : ℤ) < lower.2 + upper.2 := by exact_mod_cast given.exhausted
  -- The denominator is a combination of theirs, with weights of at least one.
  have whole : q = upper.2 * (p * lower.2 - lower.1 * q) + lower.2 * (upper.1 * q - p * upper.2) := by
    linear_combination -q * unimodular
  have first : (upper.2 : ℤ) * 1 ≤ upper.2 * (p * lower.2 - lower.1 * q) :=
    mul_le_mul_of_nonneg_left (by linarith) (Int.natCast_nonneg _)
  have second : (lower.2 : ℤ) * 1 ≤ lower.2 * (upper.1 * q - p * upper.2) :=
    mul_le_mul_of_nonneg_left (by linarith) (Int.natCast_nonneg _)
  linarith

end Brackets

/-! ### Following a continued fraction -/

namespace Convergents

/-- Dividing first foresees whether the next denominator passes the limit. -/
theorem passes_iff {limit : Nat} {c : Convergents} (quotient : Nat) (within : c.q0 ≤ limit) :
    c.q1 ≠ 0 ∧ (limit - c.q0) / c.q1 < quotient ↔ limit < c.q0 + quotient * c.q1 := by
  by_cases zero : c.q1 = 0
  · simp only [zero, ne_eq, not_true_eq_false, false_and, false_iff]
    omega
  · rw [Nat.div_lt_iff_lt_mul (Nat.pos_of_ne_zero zero), and_iff_right zero]
    omega

/-- A step is made exactly if its denominator stays within the limit. -/
theorem step_eq (limit : Nat) (c : Convergents) (quotient : Nat) (within : c.q0 ≤ limit) :
    c.step limit quotient =
      if limit < c.q0 + quotient * c.q1 then none
      else some ⟨c.p1, c.q1, c.p0 + quotient * c.p1, c.q0 + quotient * c.q1⟩ := by
  simp only [step, passes_iff quotient within]
  split <;> rfl

/-- How far a fraction is expanded: its numerator and its denominator are made up of those of the
convergents and of what is left. -/
structure Expands (limit : Nat) (target : Nat × Nat) (c : Convergents) (num den : Nat) : Prop where
  numerator : c.p1 * num + c.p0 * den = target.1
  denominator : c.q1 * num + c.q0 * den = target.2
  unimodular : (c.p1 * c.q0 - c.p0 * c.q1 : ℤ) = 1 ∨ (c.p1 * c.q0 - c.p0 * c.q1 : ℤ) = -1
  previous : c.q0 ≤ limit
  last : c.q1 ≤ limit

namespace Expands

variable {limit num den : Nat} {target : Nat × Nat} {c : Convergents}

theorem initial (positive : 0 < limit) : Expands limit target .initial target.1 target.2 where
  numerator := by simp [Convergents.initial]
  denominator := by simp [Convergents.initial]
  unimodular := by simp [Convergents.initial]
  previous := positive
  last := Nat.zero_le limit

/-- One more partial quotient keeps numerator and denominator of the target made up of the
convergents. -/
theorem advance (given : Expands limit target c num den)
    (within : c.q0 + num / den * c.q1 ≤ limit) :
    Expands limit target ⟨c.p1, c.q1, c.p0 + num / den * c.p1, c.q0 + num / den * c.q1⟩ den
      (num % den) where
  numerator := by
    linear_combination given.numerator + c.p1 * Nat.div_add_mod num den
  denominator := by
    linear_combination given.denominator + c.q1 * Nat.div_add_mod num den
  unimodular := by
    push_cast
    rcases given.unimodular with positive | negative
    · right
      linear_combination -positive
    · left
      linear_combination -negative
  previous := given.last
  last := within

theorem of_step {next : Convergents} (given : Expands limit target c num den)
    (found : c.step limit (num / den) = some next) : Expands limit target next den (num % den) := by
  rw [step_eq limit c _ given.previous] at found
  split at found
  · cases found
  next within =>
    obtain rfl := Option.some.inj found
    exact given.advance (Nat.not_lt.mp within)

/-- The convergents before the first step are the only ones with a vanishing denominator. -/
theorem q0_of_q1 (given : Expands limit target c num den) (zero : c.q1 = 0) : c.q0 = 1 := by
  have unit : IsUnit (c.p1 * c.q0 : ℤ) := by
    rw [Int.isUnit_iff]
    simpa [zero] using given.unimodular
  exact Nat.isUnit_iff.mp (Int.ofNat_isUnit.mp (isUnit_of_mul_isUnit_right unit))

end Expands

/-- The expansion ends if nothing is left or if the next denominator would pass the limit. -/
theorem follow_expands {limit : Nat} {target : Nat × Nat} (c : Convergents) (num den : Nat)
    (given : c.Expands limit target num den) :
    ∃ rest part, (c.follow limit num den).Expands limit target rest part ∧
      (part = 0 ∨ limit < (c.follow limit num den).q0 + rest / part * (c.follow limit num den).q1) := by
  fun_induction c.follow limit num den with
  | case1 c num => exact ⟨num, 0, given, .inl rfl⟩
  | case2 c num den stopped =>
    rw [step_eq limit c _ given.previous] at stopped
    split at stopped
    next passed => exact ⟨num, den + 1, given, .inr passed⟩
    · cases stopped
  | case3 c num den next found ih => exact ih (given.of_step found)

/-! ### The two candidates -/

namespace Expands

variable {limit num den : Nat} {target : Nat × Nat} {c : Convergents}

/-- A fraction that passes the limit itself leaves something to expand. -/
theorem den_pos (given : Expands limit target c num den) (coprime : target.1.Coprime target.2)
    (passes : limit < target.2) : 0 < den := by
  by_contra zero
  obtain rfl : den = 0 := by omega
  have numerator := given.numerator
  have denominator := given.denominator
  simp only [Nat.mul_zero, Nat.add_zero] at numerator denominator
  -- What is left divides both, so it is one, and the last denominator is that of the fraction.
  have divides : num ∣ target.1.gcd target.2 :=
    Nat.dvd_gcd (numerator ▸ Nat.dvd_mul_left _ _) (denominator ▸ Nat.dvd_mul_left _ _)
  have unit : num = 1 := Nat.dvd_one.mp (coprime.gcd_eq_one ▸ divides)
  have within := given.last
  rw [unit, Nat.mul_one] at denominator
  omega

/-- Where the expansion stops at the limit, the last quotient that fits is smaller than the one to
come. -/
theorem room (given : Expands limit target c num den) (positive : 0 < limit)
    (passed : limit < c.q0 + num / den * c.q1) :
    0 < c.q1 ∧ (limit - c.q0) / c.q1 < num / den := by
  have previous := given.previous
  have q1 : 0 < c.q1 := by
    by_contra none
    have zero : c.q1 = 0 := by omega
    rw [zero, given.q0_of_q1 zero] at passed
    omega
  refine ⟨q1, (Nat.div_lt_iff_lt_mul q1).mpr ?_⟩
  omega

/-- No numerator up to the next one passes that of the fraction. -/
theorem numerator_le (given : Expands limit target c num den) (den_pos : 0 < den)
    {k : Nat} (small : k ≤ num / den) : c.p0 + k * c.p1 ≤ target.1 := by
  have product : k * den ≤ num :=
    Nat.le_trans (Nat.mul_le_mul_right den small) (Nat.div_mul_le_self num den)
  calc c.p0 + k * c.p1 ≤ (c.p0 + k * c.p1) * den := Nat.le_mul_of_pos_right _ den_pos
    _ = c.p1 * (k * den) + c.p0 * den := by ring
    _ ≤ c.p1 * num + c.p0 * den := Nat.add_le_add_right (Nat.mul_le_mul_left _ product) _
    _ = target.1 := given.numerator

/-- How far a fraction lies from the last convergent and from one beyond it, as a multiple of the
determinant. -/
theorem offsets (given : Expands limit target c num den) (k : Nat) :
    (target.1 * c.q1 - c.p1 * target.2 : ℤ) = -den * (c.p1 * c.q0 - c.p0 * c.q1) ∧
      (target.1 * (c.q0 + k * c.q1) - (c.p0 + k * c.p1) * target.2 : ℤ) =
        (num - k * den) * (c.p1 * c.q0 - c.p0 * c.q1) := by
  have numerator : (c.p1 * num + c.p0 * den : ℤ) = target.1 := by exact_mod_cast given.numerator
  have denominator : (c.q1 * num + c.q0 * den : ℤ) = target.2 := by exact_mod_cast given.denominator
  rw [← numerator, ← denominator]
  constructor <;> ring

/-- The last convergent and the last semiconvergent lie on different sides of the fraction. -/
theorem brackets (given : Expands limit target c num den) (positive : 0 < limit) (den_pos : 0 < den)
    (passed : limit < c.q0 + num / den * c.q1) :
    Brackets limit target (c.semi limit) c.last ∨ Brackets limit target c.last (c.semi limit) := by
  obtain ⟨q1, room⟩ := given.room positive passed
  simp only [semi, Convergents.last]
  generalize fits : (limit - c.q0) / c.q1 = k at room
  have previous := given.previous
  have within := given.last
  have least : k * c.q1 ≤ limit - c.q0 := fits ▸ Nat.div_mul_le_self _ _
  have most : limit - c.q0 < (k + 1) * c.q1 := (Nat.div_lt_iff_lt_mul q1).mp (by omega)
  rw [Nat.succ_mul] at most
  -- What is left is more than this many times the next part.
  have rest : (0 : ℤ) < num - k * den := by
    have fewer : k * den < num :=
      Nat.lt_of_lt_of_le (Nat.mul_lt_mul_of_pos_right room den_pos) (Nat.div_mul_le_self num den)
    exact_mod_cast sub_pos.mpr (Int.ofNat_lt.mpr fewer)
  obtain ⟨fromLast, fromSemi⟩ := given.offsets k
  rcases given.unimodular with unimodular | unimodular
  · left
    rw [unimodular] at fromLast fromSemi
    refine ⟨by omega, q1, by omega, within, ?_, by omega, ?_, ?_⟩
    · zify
      linear_combination unimodular
    · zify
      linarith
    · zify
      linarith
  · right
    rw [unimodular] at fromLast fromSemi
    refine ⟨q1, by omega, within, by omega, ?_, by omega, ?_, ?_⟩
    · zify
      linear_combination -unimodular
    · zify
      linarith
    · zify
      linarith

end Expands

/-- The candidates bracket a fraction in lowest terms that passes the limit itself. -/
theorem follow_brackets {limit : Nat} {target : Nat × Nat} (positive : 0 < limit)
    (coprime : target.1.Coprime target.2) (passes : limit < target.2) :
    let c := initial.follow limit target.1 target.2
    Brackets limit target (c.semi limit) c.last ∨ Brackets limit target c.last (c.semi limit) := by
  obtain ⟨num, den, given, ended⟩ := follow_expands initial target.1 target.2 (.initial positive)
  have den_pos := given.den_pos coprime passes
  exact given.brackets positive den_pos (ended.resolve_left den_pos.ne')

/-- The numerators of the candidates are at most that of the fraction. -/
theorem follow_numerators {limit : Nat} {target : Nat × Nat} (positive : 0 < limit)
    (coprime : target.1.Coprime target.2) (passes : limit < target.2) :
    let c := initial.follow limit target.1 target.2
    c.last.1 ≤ target.1 ∧ (c.semi limit).1 ≤ target.1 := by
  obtain ⟨num, den, given, ended⟩ := follow_expands initial target.1 target.2 (.initial positive)
  have den_pos := given.den_pos coprime passes
  obtain ⟨-, room⟩ := given.room positive (ended.resolve_left den_pos.ne')
  have next := given.numerator_le (k := 1) den_pos (Nat.zero_lt_of_lt room)
  exact ⟨by simp only [last]; omega, given.numerator_le den_pos (Nat.le_of_lt room)⟩

theorem follow_admissible {limit : Nat} {target : Nat × Nat} (positive : 0 < limit)
    (coprime : target.1.Coprime target.2) (passes : limit < target.2) :
    let c := initial.follow limit target.1 target.2
    Admissible limit c.last ∧ Admissible limit (c.semi limit) := by
  rcases follow_brackets positive coprime passes with given | given
  · exact ⟨given.upper_admissible, given.lower_admissible⟩
  · exact ⟨given.lower_admissible, given.upper_admissible⟩

end Convergents

end Clausal.Fraction
