import Clausal.Number.Decimal

/-!
# The shortest decimal text of a number

The digits written for a finite number are the fewest that read back as the same number, and of
those the nearest to it. They are written positionally or in scientific notation, whichever is
shorter.
-/

namespace Clausal

namespace Decimal

/-- Drops trailing zeros of the digits. -/
def dropZeros : Nat → Decimal → Decimal
  | 0, x => x
  | fuel + 1, x =>
    if x.digits ≠ 0 ∧ x.digits % 10 = 0 then dropZeros fuel ⟨x.digits / 10, x.exponent + 1⟩ else x

/-- The same number with digits that do not end in zero. -/
def normalize (x : Decimal) : Decimal := dropZeros (decimalLength x.digits) x

/-- The decimal exponent of the first digit of `num / den`. -/
def leadingExponent (num den : Nat) : Int :=
  if den ≤ num then decimalLength (num / den) - 1
  else
    let t := decimalLength (den / num)
    if den ≤ num * pow10 (t - 1) then 1 - t else -t

/-- The two neighbours of `num / den` among the multiples of `10 ^ exponent`, the nearer first; of
two equally near, the one with the even last digit is first. -/
def neighbours (num den : Nat) (exponent : Int) : List Decimal :=
  let n := num * pow10 (-exponent).toNat
  let d := den * pow10 exponent.toNat
  let nearest := divNearest n d
  let other := if n / d = nearest then nearest + 1 else n / d
  [⟨nearest, exponent⟩, ⟨other, exponent⟩]

end Decimal

namespace Binary64

/-- Whether a decimal reads as the magnitude of a number. -/
def readsAs (x : Binary64) (d : Decimal) : Bool := d.toBinary64 x.negative == x

def exactDecimal (x : Binary64) : Decimal := ⟨x.units * Nat.pow 5 1074, -1074⟩

/-- The nearest decimal with a given number of digits after its first, if it reads back. -/
def readableAt (x : Binary64) (places : Nat) : Option Decimal :=
  let leading := Decimal.leadingExponent x.units unitsPerOne
  (Decimal.neighbours x.units unitsPerOne (leading - places)).find? x.readsAs

/-- The fewest digits that read back as a finite number other than zero. Seventeen are enough; the
exact value reads back in any case. -/
def shortest (x : Binary64) : Decimal :=
  (((List.range 17).findSome? x.readableAt).getD x.exactDecimal).normalize

/-- An exponent has a sign and at least two digits. -/
def exponentText (e : Int) : Text :=
  let digits := Text.ofNat e.natAbs
  (if e < 0 then "e-" else "e+") ++ (if digits.length < 2 then ascii '0' :: digits else digits)

/-- One digit, a point before further digits, and the exponent. -/
def scientificText (d : Decimal) : Text :=
  match Text.ofNat d.digits with
  | [] => []
  | first :: rest =>
    first :: (if rest.isEmpty then [] else ascii '.' :: rest) ++
      exponentText (d.exponent + rest.length)

/-- Positional notation; a whole number is written with all its digits. -/
def positionalText (x : Binary64) (d : Decimal) : Text :=
  let digits := Text.ofNat d.digits
  if 0 ≤ d.exponent then Text.ofNat (x.units / unitsPerOne)
  else
    let places := d.exponent.natAbs
    if places < digits.length then
      digits.take (digits.length - places) ++ ascii '.' :: digits.drop (digits.length - places)
    else "0." ++ List.replicate (places - digits.length) (ascii '0') ++ digits

/-- The magnitude of a finite number, in the shorter notation and positionally on a tie. -/
def magnitudeText (x : Binary64) : Text :=
  if x.units = 0 then "0"
  else
    let d := x.shortest
    let positional := x.positionalText d
    let scientific := scientificText d
    if positional.length ≤ scientific.length then positional else scientific

/-- The text of a number. A finite number written as plain digits gets `.0`, so that it cannot be
read as an integer. -/
def text (x : Binary64) : Text :=
  let sign : Text := if x.negative then "-" else ""
  if x.isNaN then sign ++ "nan"
  else if !x.isFinite then sign ++ "inf"
  else
    let digits := x.magnitudeText
    sign ++ digits ++ (if digits.all Byte.isDigit then ".0" else "")

end Binary64

end Clausal
