import Clausal.Number.Shortest

/-!
# Approximation by fractions

A double precision number is turned into a fraction with a bounded denominator. Its exact binary
fraction is taken where the bound allows it. Otherwise the continued fraction is followed while
the denominators fit, and the last convergent competes with the last semiconvergent: the nearer
wins, where distances are computed with 64 significant bits.
-/

namespace Clausal

/-- A fraction with a positive denominator. -/
structure Fraction where
  num : Int
  den : Nat
deriving DecidableEq, Inhabited

namespace Fraction

/-- Why a number has no fraction. -/
inductive Error where
  | notFinite
  | limitNotPositive
  | outOfRange (value : Binary64)
deriving DecidableEq

def Error.message : Error → Text
  | .notFinite => "cannot convert non-finite value to a rational"
  | .limitNotPositive => "max_denominator must be positive"
  | .outOfRange value => "value out of range for rational conversion: " ++ value.text

def lowestTerms (num den : Nat) : Nat × Nat := (num / Nat.gcd num den, den / Nat.gcd num den)

/-- The largest denominator of a binary fraction that is still taken exactly. -/
def binaryLimit : Nat := pow2 62

/-- The magnitude of a finite number as a fraction in lowest terms, rounded to 62 binary places
(a tie goes up) where it has more. -/
def ofMagnitude (x : Binary64) : Nat × Nat :=
  let exact := lowestTerms x.units Binary64.unitsPerOne
  if exact.2 ≤ binaryLimit then exact
  else
    lowestTerms
      ((2 * x.units * binaryLimit + Binary64.unitsPerOne) / (2 * Binary64.unitsPerOne))
      binaryLimit

/-- Two successive convergents `p0 / q0` and `p1 / q1` of a continued fraction. -/
structure Convergents where
  p0 : Nat
  q0 : Nat
  p1 : Nat
  q1 : Nat
deriving DecidableEq

/-- The convergents before the first partial quotient. -/
def Convergents.initial : Convergents := ⟨0, 1, 1, 0⟩

/-- The convergents after one more partial quotient, unless the denominator would pass `limit`. -/
def Convergents.step (limit : Nat) (c : Convergents) (quotient : Nat) : Option Convergents :=
  if c.q1 ≠ 0 ∧ (limit - c.q0) / c.q1 < quotient then none
  else if limit < c.q0 + quotient * c.q1 then none
  else some ⟨c.p1, c.q1, c.p0 + quotient * c.p1, c.q0 + quotient * c.q1⟩

/-- Follows the continued fraction of `num / den` while the denominators stay within `limit`. -/
def Convergents.follow (limit : Nat) (c : Convergents) : Nat → Nat → Convergents
  | _, 0 => c
  | num, den + 1 =>
    match c.step limit (num / (den + 1)) with
    | none => c
    | some next => next.follow limit (den + 1) (num % (den + 1))
termination_by _ den => den
decreasing_by exact Nat.mod_lt _ (Nat.succ_pos _)

/-- The last convergent within the limit. -/
def Convergents.last (c : Convergents) : Nat × Nat := (c.p1, c.q1)

/-- The last semiconvergent within the limit. -/
def Convergents.semi (limit : Nat) (c : Convergents) : Nat × Nat :=
  let k := (limit - c.q0) / c.q1
  (c.p0 + k * c.p1, c.q0 + k * c.q1)

/-- The number of significant bits in which distances are computed. -/
def distancePrecision : Nat := 64

/-- The distance of two fractions, each quotient and the difference rounded once. -/
def distance (a b : Nat × Nat) : Dyadic :=
  let x := Dyadic.roundQuotient distancePrecision a.1 a.2
  let y := Dyadic.roundQuotient distancePrecision b.1 b.2
  ((x.sub y).round distancePrecision).abs

/-- A fraction near `target` with a denominator of at most `limit`. -/
def approximate (limit : Nat) (target : Nat × Nat) : Nat × Nat :=
  if target.2 ≤ limit then target
  else
    let c := Convergents.initial.follow limit target.1 target.2
    if (distance c.last target).le (distance (c.semi limit) target) then
      lowestTerms c.last.1 c.last.2
    else lowestTerms (c.semi limit).1 (c.semi limit).2

/-- The least magnitude that is out of range. -/
def rangeLimit : Nat := 9200000000000000000

/-- The denominators allowed unless stated otherwise. -/
def defaultLimit : Int := 1000000

/-- A fraction near a number with a denominator of at most `limit`. -/
def ofBinary64 (limit : Int) (x : Binary64) : Except Error Fraction :=
  if !x.isFinite then .error .notFinite
  else if limit < 1 then .error .limitNotPositive
  else if rangeLimit * Binary64.unitsPerOne ≤ x.units then .error (.outOfRange x)
  else
    let (num, den) := approximate limit.toNat (ofMagnitude x)
    .ok ⟨if x.negative then -(num : Int) else num, den⟩

end Fraction

end Clausal
