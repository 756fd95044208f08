import Clausal.Proofs.Approximation

/-!
# Fractions in machine words

The fraction of a number is found with signed words of 64 bits. Here every operation on words is
checked: it has no result if the exact one does not fit into a word or if a divisor is zero. The
invariants of the expansion keep all intermediate results small, so that the computation always has a
result, which is the one found with unbounded numbers.

## Main results

`Convergents.loop_run`: the expansion in words follows the one in natural numbers.

`Words.ofBinary64_words`: the computation in words has the result of the one with unbounded numbers.

`ofBinary64_fits`: this is a neighbour of the rounded value, with its sign.
-/

namespace Clausal

/-! ### Checked operations -/

namespace Word

/-- The largest signed word of 64 bits. -/
def top : Nat := 2 ^ 63 - 1

/-- An integer, if it fits into a word. -/
def fit (n : Int) : Option Int := if -top - 1 ≤ n ∧ n ≤ top then some n else none

def add (a b : Int) : Option Int := fit (a + b)

def sub (a b : Int) : Option Int := fit (a - b)

def mul (a b : Int) : Option Int := fit (a * b)

def neg (a : Int) : Option Int := fit (-a)

/-- The quotient rounded towards zero. -/
def div (a b : Int) : Option Int := if b = 0 then none else fit (a.tdiv b)

def gcd (a b : Int) : Option Int := fit (Int.gcd a b)

/-- A one shifted to the left, by less than the width of a word. -/
def bit (shift : Nat) : Option Int := if shift < 64 then fit (2 ^ shift) else none

theorem eq_of_fit {n m : Int} (fits : fit n = some m) : m = n := by
  unfold fit at fits
  split at fits
  · exact (Option.some.inj fits).symm
  · cases fits

theorem eq_of_div {n m k : Int} (divided : div n m = some k) : m ≠ 0 ∧ k = n.tdiv m := by
  unfold div at divided
  split at divided
  · cases divided
  next nonzero => exact ⟨nonzero, eq_of_fit divided⟩

variable {a b : Nat}

theorem fit_natCast (fits : a ≤ top) : fit a = some (a : Int) := by
  rw [fit, if_pos (by omega)]

/-- Sums that fit are computed exactly, and so it is for the other operations. -/
theorem add_natCast (fits : a + b ≤ top) : add a b = some ((a + b : Nat) : Int) :=
  fit_natCast fits

theorem sub_natCast (fits : a ≤ top) (less : b ≤ a) : sub a b = some ((a - b : Nat) : Int) := by
  rw [sub, ← Int.ofNat_sub less]
  exact fit_natCast (by omega)

theorem mul_natCast (fits : a * b ≤ top) : mul a b = some ((a * b : Nat) : Int) := by
  rw [mul, ← Int.natCast_mul]
  exact fit_natCast fits

theorem div_natCast (fits : a ≤ top) (positive : 0 < b) : div a b = some ((a / b : Nat) : Int) := by
  rw [div, if_neg (by omega), ← Int.ofNat_tdiv]
  exact fit_natCast (Nat.le_trans (Nat.div_le_self a b) fits)

theorem gcd_natCast (fits : b ≤ top) (positive : 0 < b) :
    gcd a b = some ((Nat.gcd a b : Nat) : Int) :=
  fit_natCast (Nat.le_trans (Nat.gcd_le_right a positive) fits)

theorem neg_natCast (fits : a ≤ top) : neg a = some (-(a : Int)) := by
  rw [neg, fit, if_pos (by omega)]

theorem bit_eq {shift : Nat} (small : shift < 63) : bit shift = some (pow2 shift : Int) := by
  have fits : pow2 shift ≤ top := Nat.le_trans (pow2_le_pow2 (Nat.le_of_lt_succ small)) (by decide)
  have cast : (2 ^ shift : Int) = (pow2 shift : Int) := by
    rw [pow2_eq]
    push_cast
    rfl
  rw [bit, if_pos (by omega), cast]
  exact fit_natCast fits

end Word

namespace Fraction

/-! ### The computation in words -/

/-- The convergents in words, with what is left of the expansion. -/
structure Loop where
  p0 : Int
  q0 : Int
  p1 : Int
  q1 : Int
  num : Int
  den : Int

namespace Loop

/-- Whether a quotient would take the denominator past the limit. -/
def passes (limit : Int) (s : Loop) (quotient : Int) : Option Bool :=
  if s.q1 = 0 then some false
  else do
    let most ← Word.div (← Word.sub limit s.q0) s.q1
    return decide (most < quotient)

/-- One round of the expansion, which may be the last. -/
def round (limit : Int) (s : Loop) : Option (Option Loop) := do
  let a ← Word.div s.num s.den
  if ← s.passes limit a then return none
  let q2 ← Word.add s.q0 (← Word.mul a s.q1)
  if limit < q2 then return none
  let p2 ← Word.add s.p0 (← Word.mul a s.p1)
  let rest ← Word.sub s.num (← Word.mul a s.den)
  return some ⟨s.p1, s.q1, p2, q2, s.den, rest⟩

/-- What is left after a round is the remainder. -/
theorem round_smaller {limit : Int} {s next : Loop} (found : s.round limit = some (some next)) :
    next.den.natAbs < s.den.natAbs := by
  simp only [round, Option.bind_eq_bind, Option.bind_eq_some_iff] at found
  obtain ⟨a, divided, passed, -, found⟩ := found
  obtain ⟨nonzero, rfl⟩ := Word.eq_of_div divided
  cases passed with
  | true => simp at found
  | false =>
    simp only [Bool.false_eq_true, if_false, Option.bind_eq_some_iff] at found
    obtain ⟨_, -, q2, -, found⟩ := found
    split at found
    · simp at found
    · simp only [Option.bind_eq_some_iff, Option.pure_def, Option.some.injEq] at found
      obtain ⟨_, -, _, -, m, product, rest, difference, rfl⟩ := found
      rw [Word.eq_of_fit difference, Word.eq_of_fit product, Int.mul_comm, ← Int.tmod_def,
        Int.natAbs_tmod]
      exact Nat.mod_lt _ (Int.natAbs_pos.mpr nonzero)

def run (limit : Int) (s : Loop) : Option Loop :=
  if s.den = 0 then some s
  else
    match _ : s.round limit with
    | none => none
    | some none => some s
    | some (some next) => next.run limit
termination_by s.den.natAbs
decreasing_by exact round_smaller ‹_›

theorem run_of_none {limit : Int} {s : Loop} (proper : s.den ≠ 0) (last : s.round limit = some none) :
    s.run limit = some s := by
  rw [run, if_neg proper]
  split <;> simp_all

theorem run_of_some {limit : Int} {s next : Loop} (proper : s.den ≠ 0)
    (further : s.round limit = some (some next)) : s.run limit = next.run limit := by
  rw [run, if_neg proper]
  split <;> simp_all

/-- The last semiconvergent and the last convergent. -/
def candidates (limit : Int) (s : Loop) : Option ((Int × Int) × (Int × Int)) := do
  let k ← Word.div (← Word.sub limit s.q0) s.q1
  let p ← Word.add s.p0 (← Word.mul k s.p1)
  let q ← Word.add s.q0 (← Word.mul k s.q1)
  return ((p, q), (s.p1, s.q1))

end Loop

namespace Words

/-- A quotient whose divisor is not zero. -/
def quotient (a : Int × Int) : Option (Nat × Nat) :=
  if a.2 = 0 then none else some (a.1.toNat, a.2.toNat)

/-- A fraction near `n / d` with a denominator of at most `limit`. -/
def approximate (limit n d : Int) : Option (Int × Int) := do
  if d ≤ limit then return (n, d)
  let s ← Loop.run limit ⟨0, 1, 1, 0, n, d⟩
  let (semi, last) ← s.candidates limit
  let target ← quotient (n, d)
  let farther := distance (← quotient semi) target
  let nearer := distance (← quotient last) target
  let (p, q) := if nearer.le farther then last else semi
  let g ← Word.gcd p q
  if 1 < g then return (← Word.div p g, ← Word.div q g)
  return (p, q)

/-- The significand as an integer of 53 bits. -/
def mantissa (x : Binary64) : Nat := x.units * pow2 52 / pow2 (Nat.log2 x.units)

/-- The number of binary places of the significand, which is not positive for large numbers. -/
def places (x : Binary64) : Int := 1126 - Nat.log2 x.units

/-- Drops zeros at the end of some binary places. -/
def trim : Nat → Nat → Nat × Nat
  | n, 0 => (n, 0)
  | n, shift + 1 => if n % 2 = 0 then trim (n / 2) shift else (n, shift + 1)

/-- A number of binary places as a fraction in lowest terms. -/
def lowest (n : Int) (shift : Nat) : Option (Int × Int) := do
  let d ← Word.bit shift
  let g ← Word.gcd n d
  return (← Word.div n g, ← Word.div d g)

/-- The magnitude of a number with the significand `n` as a fraction in lowest terms, rounded where it
has too many places. -/
def ofMagnitude (x : Binary64) (n : Int) : Option (Int × Int) := do
  let (n, shift) := trim n.toNat (places x).toNat
  if 62 < shift then
    let n ← Word.fit ((2 * x.units * binaryLimit + Binary64.unitsPerOne) /
      (2 * Binary64.unitsPerOne) : Nat)
    if n = 0 then return (0, 1)
    lowest n 62
  else lowest n shift

def signed (x : Binary64) (n : Int) : Option Int := if x.negative then Word.neg n else some n

/-- A fraction near a number that is in range. -/
def ofBinary64 (limit : Int) (x : Binary64) : Option Fraction := do
  if x.units = 0 then return ⟨0, 1⟩
  let n ← Word.fit (mantissa x)
  if places x ≤ 0 then
    let whole ← Word.fit (x.units / Binary64.unitsPerOne : Nat)
    return ⟨← signed x whole, 1⟩
  let (n, d) ← ofMagnitude x n
  let (p, q) ← approximate limit n d
  return ⟨← signed x p, q.toNat⟩

end Words

/-- A pair of natural numbers in words. -/
def words (a : Nat × Nat) : Int × Int := (a.1, a.2)

/-! ### Convergents in words -/

namespace Convergents

def loop (c : Convergents) (num den : Nat) : Loop := ⟨c.p0, c.q0, c.p1, c.q1, num, den⟩

variable {limit num den : Nat} {target : Nat × Nat} {c : Convergents}

/-- The guard in words is the one in natural numbers. -/
theorem loop_passes (num den quotient : Nat) (fits : limit ≤ Word.top) (previous : c.q0 ≤ limit) :
    (c.loop num den).passes limit quotient =
      some (decide (limit < c.q0 + quotient * c.q1)) := by
  have same : decide (limit < c.q0 + quotient * c.q1) =
      decide (c.q1 ≠ 0 ∧ (limit - c.q0) / c.q1 < quotient) :=
    decide_eq_decide.mpr (passes_iff quotient previous).symm
  rw [same]
  by_cases zero : c.q1 = 0
  · simp [Loop.passes, loop, zero]
  · have difference := Word.sub_natCast fits previous
    have divided : Word.div (limit - c.q0 : Nat) c.q1 = some ((limit - c.q0) / c.q1 : Nat) :=
      Word.div_natCast (by omega) (Nat.pos_of_ne_zero zero)
    simp only [Loop.passes, loop, Int.natCast_eq_zero, zero, if_false, difference, divided,
      Option.bind_eq_bind, Option.bind_some, Option.pure_def, Int.ofNat_lt, ne_eq,
      not_false_eq_true, true_and]

/-- A round in words does what a step does, and all its results fit. -/
theorem loop_round (given : Expands limit target c num den) (den_pos : 0 < den)
    (fits : limit ≤ Word.top) (numerator : target.1 ≤ Word.top) (num_le : num ≤ Word.top) :
    (c.loop num den).round limit =
      some ((c.step limit (num / den)).map fun next => next.loop den (num % den)) := by
  have guard := loop_passes num den (num / den) fits given.previous
  have divided := Word.div_natCast num_le den_pos
  rw [Loop.round, step_eq limit c _ given.previous]
  simp only [loop, divided, Option.bind_eq_bind, Option.bind_some] at guard ⊢
  rw [guard, Option.bind_some]
  split
  next passed => simp [of_decide_eq_true passed]
  next within =>
    rw [decide_eq_true_eq] at within
    have nextNumerator := given.numerator_le den_pos (Nat.le_refl (num / den))
    have product : num / den * den ≤ num := Nat.div_mul_le_self num den
    have remainder : num - num / den * den = num % den := by
      rw [Nat.mul_comm]
      exact (Nat.mod_eq_sub_mul_div).symm
    rw [Word.mul_natCast (by omega), Option.bind_some, Word.add_natCast (by omega), Option.bind_some,
      if_neg (by omega), if_neg within, Word.mul_natCast (by omega), Option.bind_some,
      Word.add_natCast (by omega), Option.bind_some, Word.mul_natCast (by omega), Option.bind_some,
      Word.sub_natCast num_le product, remainder]
    rfl

/-- The expansion in words is the one in natural numbers. -/
theorem loop_run (c : Convergents) (num den : Nat) (given : c.Expands limit target num den)
    (fits : limit ≤ Word.top) (numerator : target.1 ≤ Word.top) (num_le : num ≤ Word.top)
    (den_le : den ≤ Word.top) :
    ∃ rest part, (c.loop num den).run limit = some ((c.follow limit num den).loop rest part) := by
  fun_induction c.follow limit num den with
  | case1 c num =>
    refine ⟨num, 0, ?_⟩
    rw [Loop.run]
    exact if_pos rfl
  | case2 c num den stopped =>
    have round := loop_round given (Nat.succ_pos den) fits numerator num_le
    rw [stopped] at round
    exact ⟨num, den + 1, Loop.run_of_none (Int.natCast_ne_zero.mpr (Nat.succ_ne_zero den)) round⟩
  | case3 c num den next found ih =>
    have round := loop_round given (Nat.succ_pos den) fits numerator num_le
    rw [found] at round
    have smaller : num % (den + 1) < den + 1 := Nat.mod_lt _ (Nat.succ_pos den)
    rw [Loop.run_of_some (Int.natCast_ne_zero.mpr (Nat.succ_ne_zero den)) round]
    exact ih (given.of_step found) den_le (by omega)

/-- The candidates in words are those in natural numbers. -/
theorem loop_candidates (given : Expands limit target c num den) (den_pos : 0 < den)
    (positive : 0 < limit) (passed : limit < c.q0 + num / den * c.q1) (fits : limit ≤ Word.top)
    (numerator : target.1 ≤ Word.top) (rest part : Nat) :
    (c.loop rest part).candidates limit =
      some (words (c.semi limit), words c.last) := by
  obtain ⟨q1, room⟩ := given.room positive passed
  have nextNumerator := given.numerator_le den_pos (Nat.le_of_lt room)
  have product := Nat.div_mul_le_self (limit - c.q0) c.q1
  have previous := given.previous
  simp only [Loop.candidates, loop, Option.bind_eq_bind]
  rw [Word.sub_natCast fits previous, Option.bind_some, Word.div_natCast (by omega) q1,
    Option.bind_some, Word.mul_natCast (by omega), Option.bind_some, Word.add_natCast (by omega),
    Option.bind_some, Word.mul_natCast (by omega), Option.bind_some, Word.add_natCast (by omega)]
  rfl

end Convergents

/-! ### Numbers in words -/

namespace Words

theorem quotient_words {a : Nat × Nat} (positive : 0 < a.2) : quotient (words a) = some a := by
  have proper : (words a).2 ≠ 0 := Int.natCast_ne_zero.mpr positive.ne'
  rw [quotient, if_neg proper]
  rfl

/-- A fraction in lowest terms is left as it is. -/
theorem gcd_words {limit : Nat} {a : Nat × Nat} (admissible : Admissible limit a)
    (fits : limit ≤ Word.top) : Word.gcd (words a).1 (words a).2 = some 1 := by
  have le := admissible.den_le
  have divisor : Word.gcd (words a).1 (words a).2 = some ((a.1.gcd a.2 : Nat) : Int) :=
    Word.gcd_natCast (by omega) admissible.den_pos
  rw [divisor, admissible.coprime.gcd_eq_one]
  rfl

/-- The computation in words never overflows on numbers that fit, and has the same result. -/
theorem approximate_words {limit : Nat} {target : Nat × Nat} (positive : 0 < limit)
    (fits : limit ≤ Word.top) (coprime : target.1.Coprime target.2) (den_pos : 0 < target.2)
    (num_le : target.1 ≤ Word.top) (den_le : target.2 ≤ Word.top) :
    approximate limit target.1 target.2 = some (words (Fraction.approximate limit target)) := by
  rcases Nat.lt_or_ge limit target.2 with passes | within
  · have start : Convergents.initial.Expands limit target target.1 target.2 := .initial positive
    obtain ⟨num, den, given, ended⟩ := Convergents.follow_expands _ _ _ start
    obtain ⟨rest, part, run⟩ := Convergents.loop_run _ _ _ start fits num_le num_le den_le
    have remains := given.den_pos coprime passes
    have candidates := Convergents.loop_candidates given remains positive
      (ended.resolve_left remains.ne') fits num_le rest part
    have admissible := Convergents.follow_admissible positive coprime passes
    rw [approximate_of_lt positive coprime passes]
    generalize Convergents.initial.follow limit target.1 target.2 = c at run candidates admissible ⊢
    obtain ⟨last, semi⟩ := admissible
    have whole : quotient ((target.1 : Int), (target.2 : Int)) = some target := quotient_words den_pos
    have beyond : ¬ (target.2 : Int) ≤ limit := by omega
    have started : Loop.run limit ⟨0, 1, 1, 0, target.1, target.2⟩ = some (c.loop rest part) := run
    simp only [approximate, if_neg beyond, Option.bind_eq_bind, started, Option.bind_some, candidates,
      whole, quotient_words semi.den_pos, quotient_words last.den_pos]
    split
    · simp [gcd_words last fits]
    · simp [gcd_words semi fits]
  · rw [approximate, if_pos (Int.ofNat_le.mpr within), Fraction.approximate, if_pos within]
    rfl

/-- Trimming keeps the value and leaves no zero to drop. -/
theorem trim_spec (n shift : Nat) :
    (trim n shift).1 * pow2 shift = n * pow2 (trim n shift).2 ∧ (trim n shift).1 ≤ n ∧
      (trim n shift).1.Coprime (pow2 (trim n shift).2) := by
  induction shift generalizing n with
  | zero => simp [trim, pow2]
  | succ shift ih =>
    rw [trim]
    split
    next even =>
      obtain ⟨value, le, coprime⟩ := ih (n / 2)
      have half : 2 * (n / 2) = n := Nat.mul_div_cancel' (Nat.dvd_of_mod_eq_zero even)
      refine ⟨?_, by omega, coprime⟩
      rw [pow2_add, show pow2 1 = 2 from rfl, ← Nat.mul_assoc, value, Nat.mul_right_comm,
        Nat.mul_comm (n / 2), half]
    next odd =>
      refine ⟨rfl, Nat.le_refl n, Nat.Coprime.pow_right _ ?_⟩
      exact Nat.coprime_two_right.mpr (Nat.odd_iff.mpr (by omega))

theorem lowest_words {n shift : Nat} (fits : n ≤ Word.top) (small : shift ≤ 62) :
    lowest n shift = some (words (lowestTerms n (pow2 shift))) := by
  have positive := pow2_pos shift
  have bound : pow2 shift ≤ Word.top := Nat.le_trans (pow2_le_pow2 small) (by decide)
  have divisor := Nat.gcd_pos_of_pos_right n positive
  simp only [lowest, Option.bind_eq_bind, Word.bit_eq (Nat.lt_succ_of_le small), Option.bind_some,
    Word.gcd_natCast bound positive, Word.div_natCast fits divisor, Word.div_natCast bound divisor]
  rfl

/-- The significand is the magnitude without its scale. -/
theorem mantissa_mul (x : Binary64) :
    mantissa x * pow2 (Nat.log2 x.units) = x.units * pow2 52 := by
  refine Nat.div_mul_cancel ?_
  have scale := x.log2_units
  rcases Nat.le_total (Nat.log2 x.units) 52 with small | large
  · exact Dvd.dvd.mul_left (pow2_dvd_pow2 small) _
  · -- The significand has its leading bit at 52, and the rest of the logarithm is the scale.
    have log : Nat.log2 x.units = x.scale + 52 := by omega
    rw [log, pow2_add, Binary64.units, Nat.mul_assoc]
    exact Nat.dvd_mul_left _ _

theorem mantissa_lt (x : Binary64) : mantissa x < pow2 53 := by
  rw [mantissa, Nat.div_lt_iff_lt_mul (pow2_pos _)]
  calc x.units * pow2 52 < pow2 (Nat.log2 x.units + 1) * pow2 52 :=
        Nat.mul_lt_mul_of_pos_right Nat.lt_log2_self (pow2_pos _)
    _ = pow2 53 * pow2 (Nat.log2 x.units) := by
        rw [← pow2_add, ← pow2_add]
        congr 1
        omega

theorem mantissa_le (x : Binary64) : mantissa x ≤ Word.top :=
  Nat.le_trans (Nat.le_of_lt (mantissa_lt x)) (by decide)

/-- The trimmed significand and its places are the magnitude in lowest terms. -/
theorem trim_mantissa {x : Binary64} (fractional : 0 < places x) :
    let trimmed := trim (mantissa x) (places x).toNat
    lowestTerms x.units Binary64.unitsPerOne = (trimmed.1, pow2 trimmed.2) := by
  obtain ⟨value, -, coprime⟩ := trim_spec (mantissa x) (places x).toNat
  refine lowestTerms_eq Binary64.unitsPerOne_pos (pow2_pos _) coprime ?_
  generalize trim (mantissa x) (places x).toNat = trimmed at value
  have total : pow2 (places x).toNat * pow2 (Nat.log2 x.units) = pow2 52 * Binary64.unitsPerOne := by
    rw [Binary64.unitsPerOne, ← pow2_add, ← pow2_add]
    congr 1
    unfold places at fractional ⊢
    omega
  have exact : mantissa x * Binary64.unitsPerOne = x.units * pow2 (places x).toNat := by
    refine Nat.eq_of_mul_eq_mul_right (pow2_pos (Nat.log2 x.units)) ?_
    linear_combination Binary64.unitsPerOne * mantissa_mul x - x.units * total
  refine Nat.eq_of_mul_eq_mul_right (pow2_pos (places x).toNat) ?_
  linear_combination Binary64.unitsPerOne * value + pow2 trimmed.2 * exact

theorem le_of_lowestTerms {num den : Nat} {a : Nat × Nat} (equal : lowestTerms num den = a)
    (proper : a.1 ≤ a.2) : num ≤ den := by
  subst equal
  calc num = num / num.gcd den * num.gcd den := (Nat.div_mul_cancel (Nat.gcd_dvd_left _ _)).symm
    _ ≤ den / num.gcd den * num.gcd den := Nat.mul_le_mul_right _ proper
    _ = den := Nat.div_mul_cancel (Nat.gcd_dvd_right _ _)

/-- A number below one is rounded to at most as many of the last places as make one. -/
theorem rounded_le {units total k : Nat} (less : units ≤ total) (positive : 0 < total) :
    (2 * units * k + total) / (2 * total) ≤ k := by
  refine Nat.le_of_lt_succ ((Nat.div_lt_iff_lt_mul (by omega)).mpr ?_)
  nlinarith [Nat.mul_le_mul_right k less]

/-- The magnitude in words is the one with unbounded numbers, and both parts of it fit. -/
theorem ofMagnitude_words {x : Binary64} (fractional : 0 < places x) :
    ofMagnitude x (mantissa x) = some (words (Fraction.ofMagnitude x)) ∧
      (Fraction.ofMagnitude x).1 ≤ Word.top ∧ (Fraction.ofMagnitude x).2 ≤ Word.top := by
  have exact := trim_mantissa fractional
  obtain ⟨value, le, coprime⟩ := trim_spec (mantissa x) (places x).toNat
  have small := mantissa_le x
  simp only [ofMagnitude, Option.bind_eq_bind, Int.toNat_natCast, Fraction.ofMagnitude]
  generalize trim (mantissa x) (places x).toNat = trimmed at exact value le coprime ⊢
  rw [exact]
  by_cases long : 62 < trimmed.2
  · have passes : binaryLimit < pow2 trimmed.2 := Nat.pow_lt_pow_right (by decide) long
    have belowOne : x.units ≤ Binary64.unitsPerOne := by
      refine le_of_lowestTerms exact (Nat.le_trans le (Nat.le_of_lt ?_))
      exact Nat.lt_of_lt_of_le (mantissa_lt x) (pow2_le_pow2 (by omega))
    have rounded := rounded_le (k := binaryLimit) belowOne Binary64.unitsPerOne_pos
    have fits : binaryLimit ≤ Word.top := by decide
    rw [if_pos long, if_neg (Nat.not_le.mpr passes)]
    generalize (2 * x.units * binaryLimit + Binary64.unitsPerOne) / (2 * Binary64.unitsPerOne) = n
      at rounded ⊢
    rw [Word.fit_natCast (by omega), Option.bind_some]
    refine ⟨?_, Nat.le_trans (Nat.div_le_self _ _) (by omega),
      Nat.le_trans (Nat.div_le_self _ _) fits⟩
    split
    next zero =>
      obtain rfl : n = 0 := Int.natCast_eq_zero.mp zero
      simp [lowestTerms, words, Nat.div_self binaryLimit_pos]
    next => exact lowest_words (by omega) (Nat.le_refl 62)
  · have within : pow2 trimmed.2 ≤ binaryLimit := pow2_le_pow2 (Nat.not_lt.mp long)
    rw [if_neg long, if_pos within, lowest_words (by omega) (Nat.not_lt.mp long),
      lowestTerms_of_coprime coprime]
    exact ⟨rfl, by omega, Nat.le_trans within (by decide)⟩

theorem signed_words {x : Binary64} {n : Nat} (fits : n ≤ Word.top) :
    signed x n = some (if x.negative then -(n : Int) else n) := by
  unfold signed
  split
  · exact Word.neg_natCast fits
  · rfl

/-- A number without binary places is an integer. -/
theorem dvd_units_of_places {x : Binary64} (large : places x ≤ 0) :
    Binary64.unitsPerOne ∣ x.units := by
  have log : 1126 ≤ Nat.log2 x.units := by
    unfold places at large
    omega
  have scale := x.log2_units
  exact Dvd.dvd.mul_left (pow2_dvd_pow2 (by omega)) _

/-- The computation in words has the same result as the one with unbounded numbers. -/
theorem ofBinary64_words {limit : Int} {x : Binary64} (finite : x.isFinite = true)
    (inRange : |x.value| < rangeLimit) (positive : 0 < limit) (fits : limit ≤ Word.top) :
    ∃ r, Fraction.ofBinary64 limit x = .ok r ∧ ofBinary64 limit x = some r := by
  refine ⟨_, ofBinary64_eq finite inRange positive, ?_⟩
  obtain ⟨bound, rfl⟩ := Int.eq_ofNat_of_zero_le (Int.le_of_lt positive)
  have one : 0 < bound := by omega
  rw [Int.toNat_natCast]
  have whole (integral : Binary64.unitsPerOne ∣ x.units) :
      Fraction.approximate bound (Fraction.ofMagnitude x) = (x.units / Binary64.unitsPerOne, 1) := by
    rw [ofMagnitude_of_dvd integral]
    exact if_pos one
  by_cases zero : x.units = 0
  · have none := whole (zero ▸ Nat.dvd_zero _)
    rw [zero, Nat.zero_div] at none
    simp [ofBinary64, zero, none]
  have significand := Word.fit_natCast (mantissa_le x)
  by_cases large : places x ≤ 0
  · have below : x.units / Binary64.unitsPerOne < rangeLimit := by
      rw [Nat.div_lt_iff_lt_mul Binary64.unitsPerOne_pos]
      exact (units_lt_iff x).mpr inRange
    have small := Nat.le_trans (Nat.le_of_lt below) (show rangeLimit ≤ Word.top by decide)
    simp only [ofBinary64, zero, large, if_false, if_true, Option.bind_eq_bind, significand,
      Word.fit_natCast small, Option.bind_some, signed_words small,
      whole (dvd_units_of_places large)]
    rfl
  · obtain ⟨magnitude, num_le, den_le⟩ := ofMagnitude_words (Int.not_le.mp large)
    have coprime := ofMagnitude_coprime x
    have found := approximate_words one (Int.ofNat_le.mp fits) coprime (ofMagnitude_den_pos x) num_le
      den_le
    have small := Nat.le_trans (approximate_num_le one coprime) num_le
    simp only [ofBinary64, zero, large, if_false, significand, magnitude, Option.bind_eq_bind,
      Option.bind_some, words, found, signed_words small, Int.toNat_natCast]
    rfl

end Words

/-- A finite number in range has a fraction within every limit that is a word. The computation in words
finds it without leaving their range and without dividing by zero. It is a neighbour of the value
rounded to 62 binary places, it has the sign of the number, and from `2 ^ 52` on it is an integer. -/
theorem ofBinary64_fits (limit : Int) (x : Binary64) (finite : x.isFinite = true)
    (inRange : |x.value| < rangeLimit) (positive : 1 ≤ limit) (fits : limit ≤ Word.top) :
    ∃ r, ofBinary64 limit x = .ok r ∧ Words.ofBinary64 limit x = some r ∧
      IsNeighbour limit (roundedTo 62 x.value) r ∧
      ((∃ n : Int, x.value * 2 ^ 62 = n) → roundedTo 62 x.value = x.value) ∧
      (2 ^ 52 ≤ |x.value| → r.den = 1) ∧ (0 < r.num → 0 < x.value) ∧ (r.num < 0 → x.value < 0) := by
  have limit_pos : 0 < limit := positive
  obtain ⟨r, found, near⟩ := ofBinary64_neighbour finite inRange limit_pos
  obtain ⟨same, given, words⟩ := Words.ofBinary64_words finite inRange limit_pos fits
  obtain rfl : r = same := Except.ok.inj (found.symm.trans given)
  refine ⟨r, found, words, near, ?_, fun large => ?_, fun sign => ?_, fun sign => ?_⟩
  · rintro ⟨n, whole⟩
    refine roundedTo_eq_self (n := n.natAbs) ?_
    rw [Nat.cast_natAbs, Int.cast_abs, ← whole, abs_mul, abs_of_pos (by positivity : (0 : ℚ) < 2 ^ 62)]
  · exact near.den_eq_one limit_pos (Binary64.den_roundedTo (Binary64.unitsPerOne_dvd_of_le large) 62)
  · by_contra nonpos
    exact absurd (near.pos_of_num_pos limit_pos sign) (not_lt.mpr (roundedTo_nonpos (not_lt.mp nonpos)))
  · by_contra nonneg
    exact absurd (near.neg_of_num_neg limit_pos sign) (not_lt.mpr (roundedTo_nonneg (not_lt.mp nonneg)))

/-- With denominators up to a thousand the ratio of a circle is approximated by `355 / 113`. -/
theorem ofBinary64_fits_circleRatio :
    circleRatio.isFinite = true ∧ |circleRatio.value| < rangeLimit ∧
      Words.ofBinary64 1000 circleRatio = some ⟨355, 113⟩ ∧
      IsNeighbour 1000 (roundedTo 62 circleRatio.value) ⟨355, 113⟩ ∧ 0 < circleRatio.value := by
  have found : ofBinary64 1000 circleRatio = .ok ⟨355, 113⟩ := by decide +kernel
  obtain ⟨r, same, words, near, -, -, sign, -⟩ :=
    ofBinary64_fits 1000 circleRatio rfl circleRatio_inRange (by decide) (by decide)
  obtain rfl := Except.ok.inj (found.symm.trans same)
  exact ⟨rfl, circleRatio_inRange, words, near, sign (by decide)⟩

end Fraction

end Clausal
