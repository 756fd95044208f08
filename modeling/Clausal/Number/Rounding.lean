import Clausal.Number.Power

/-!
# Rounding to nearest

A quotient of natural numbers is rounded to the nearest integer, or to a given number of
significant bits, and a tie goes to the even neighbour.
-/

namespace Clausal

/-- The integer nearest to `num / den`, the even one of two equally near. -/
def divNearest (num den : Nat) : Nat :=
  let q := num / den
  let r := num % den
  if 2 * r < den then q
  else if den < 2 * r then q + 1
  else if q % 2 = 0 then q
  else q + 1

/-- The number `mantissa * 2 ^ exponent`. -/
structure Dyadic where
  mantissa : Int
  exponent : Int
deriving DecidableEq, Inhabited

namespace Dyadic

/-- The mantissa of a number over a smaller exponent. -/
def mantissaAt (x : Dyadic) (exponent : Int) : Int :=
  x.mantissa * pow2 (x.exponent - exponent).toNat

def sub (x y : Dyadic) : Dyadic :=
  let e := min x.exponent y.exponent
  ⟨x.mantissaAt e - y.mantissaAt e, e⟩

def abs (x : Dyadic) : Dyadic := { x with mantissa := x.mantissa.natAbs }

def le (x y : Dyadic) : Bool :=
  let e := min x.exponent y.exponent
  decide (x.mantissaAt e ≤ y.mantissaAt e)

/-- The quotient of two natural numbers rounded to `precision` significant bits. The exponent is
chosen so that the integral part of the scaled quotient has exactly that many bits. -/
def roundQuotient (precision num den : Nat) : Dyadic :=
  if num = 0 then ⟨0, 0⟩
  else
    let bits (e : Int) : Nat := Nat.log2 (num * pow2 (-e).toNat / (den * pow2 e.toNat)) + 1
    let guess : Int := Nat.log2 num - Nat.log2 den - precision
    let e := if bits guess ≤ precision then guess else guess + 1
    ⟨divNearest (num * pow2 (-e).toNat) (den * pow2 e.toNat), e⟩

/-- A number rounded to `precision` significant bits. -/
def round (precision : Nat) (x : Dyadic) : Dyadic :=
  let r := roundQuotient precision (x.mantissa.natAbs * pow2 x.exponent.toNat)
    (pow2 (-x.exponent).toNat)
  { r with mantissa := x.mantissa.sign * r.mantissa }

end Dyadic

end Clausal
