import Clausal.Number.Rounding

/-!
# Double precision numbers

A number of the IEEE 754 format with 53 significant bits, held as its 64 bits: a sign, an
exponent field of 11 bits and a fraction of 52 bits. A finite number is an integral multiple
(`units`) of the least positive one, `2 ^ -1074`, so statements about values need integers only.
-/

namespace Clausal

/-- A double precision number by its bits. -/
structure Binary64 where
  bits : UInt64
deriving DecidableEq, Inhabited

namespace Binary64

/-- The weight of the sign bit. -/
def signBit : Nat := pow2 63

/-- The weight of the last bit of the exponent field, which is also that of the leading bit of a
significand. -/
def leadingBit : Nat := pow2 52

/-- The exponent field of infinity and NaN. -/
def topField : Nat := 2047

/-- The exponent field of one. -/
def oneField : Nat := 1023

/-- Whether the sign bit is set. -/
def negative (x : Binary64) : Bool := decide (signBit ≤ x.bits.toNat)

/-- The bits below the sign. -/
def magnitude (x : Binary64) : Nat := x.bits.toNat % signBit

def field (x : Binary64) : Nat := x.magnitude / leadingBit

def fraction (x : Binary64) : Nat := x.magnitude % leadingBit

def isFinite (x : Binary64) : Bool := x.field != topField

def isNaN (x : Binary64) : Bool := x.field == topField && x.fraction != 0

def significand (x : Binary64) : Nat := if x.field = 0 then x.fraction else leadingBit + x.fraction

/-- The exponent of the last place, counted from `-1074`. -/
def scale (x : Binary64) : Nat := x.field - 1

/-- The magnitude of a finite number in units of `2 ^ -1074`. -/
def units (x : Binary64) : Nat := x.significand * pow2 x.scale

def unitsPerOne : Nat := pow2 1074

def ofMagnitude (negative : Bool) (magnitude : Nat) : Binary64 :=
  ⟨UInt64.ofNat ((if negative then signBit else 0) + magnitude)⟩

def infinity (negative : Bool) : Binary64 := ofMagnitude negative (topField * leadingBit)

def zero (negative : Bool) : Binary64 := ofMagnitude negative 0

def nan : Binary64 := ofMagnitude false (topField * leadingBit + leadingBit / 2)

/-- The number nearest to `num / den` with the given sign, a tie going to the even significand and
an overflow to infinity. Rounding up to the next power of two carries into the exponent field. -/
def ofRatio (negative : Bool) (num den : Nat) : Binary64 :=
  let scaled := num * unitsPerOne
  let scale := Nat.log2 (scaled / den) - 52
  let magnitude := scale * leadingBit + divNearest scaled (den * pow2 scale)
  ofMagnitude negative (min magnitude (topField * leadingBit))

def ofInt (n : Int) : Binary64 := ofRatio (decide (n < 0)) n.natAbs 1

/-- Numeric equality: the two zeros are equal and a NaN is equal to nothing. -/
def numEq (x y : Binary64) : Bool :=
  !x.isNaN && !y.isNaN && (x == y || (x.magnitude == 0 && y.magnitude == 0))

/-- Whether a number lies between zero and one. -/
def isWeight (x : Binary64) : Bool :=
  x.magnitude == 0 || (!x.negative && x.magnitude ≤ oneField * leadingBit)

end Binary64

end Clausal
