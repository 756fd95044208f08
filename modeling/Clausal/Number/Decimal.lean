import Clausal.Text
import Clausal.Number.Binary64

/-!
# Decimal numbers

Decimal numerals as they are read: the decimal and hexadecimal floating forms with an optional
exponent, the names of infinity and NaN, and 64-bit integers. Reading rounds the exact value once
to the nearest double precision number.
-/

namespace Clausal

/-- The number `digits * 10 ^ exponent`. -/
structure Decimal where
  digits : Nat
  exponent : Int
deriving DecidableEq, Inhabited

/-- The number of decimal digits of a natural number; zero has one. -/
def decimalLength (n : Nat) : Nat := (Nat.toDigits 10 n).length

namespace Decimal

/-- The nearest double precision number. A number of at least `10 ^ 310` is beyond the largest
and one below `10 ^ -330` nearer to zero than to the least, whatever the digits. -/
def toBinary64 (negative : Bool) (x : Decimal) : Binary64 :=
  let top := decimalLength x.digits + x.exponent
  if x.digits = 0 then .zero negative
  else if 310 < top then .infinity negative
  else if top < -330 then .zero negative
  else .ofRatio negative (x.digits * pow10 x.exponent.toNat) (pow10 (-x.exponent).toNat)

end Decimal

namespace Numeral

/-- A mark, a sign and at least one digit give an exponent; otherwise nothing is taken. -/
def exponent (isMark : UInt8 → Bool) : Text → Int × Text
  | mark :: rest =>
    let (negative, digits) : Bool × Text :=
      match rest with
      | sign :: digits =>
        if sign = ascii '-' then (true, digits)
        else if sign = ascii '+' then (false, digits)
        else (false, rest)
      | [] => (false, [])
    let taken := digits.takeWhile Byte.isDigit
    if isMark mark && !taken.isEmpty then
      let n : Int := Text.toNat taken
      (if negative then -n else n, digits.dropWhile Byte.isDigit)
    else (0, mark :: rest)
  | [] => (0, [])

/-- Digits, and digits after a point. -/
def digitsAndFraction (isDigit : UInt8 → Bool) (t : Text) : Text × Text × Text :=
  let whole := t.takeWhile isDigit
  match t.dropWhile isDigit with
  | b :: rest =>
    if b = ascii '.' then (whole, rest.takeWhile isDigit, rest.dropWhile isDigit)
    else (whole, [], b :: rest)
  | [] => (whole, [], [])

/-- A decimal numeral with at least one digit, and the text after it. -/
def decimal? (t : Text) : Option (Decimal × Text) :=
  let (whole, fraction, rest) := digitsAndFraction Byte.isDigit t
  if whole.isEmpty && fraction.isEmpty then none
  else
    let (e, rest) := exponent (fun b => Byte.toLower b = ascii 'e') rest
    some (⟨Text.toNat (whole ++ fraction), e - fraction.length⟩, rest)

def isHexDigit (b : UInt8) : Bool :=
  Byte.isDigit b || (ascii 'a' ≤ Byte.toLower b && Byte.toLower b ≤ ascii 'f')

def hexDigit (b : UInt8) : Nat :=
  if Byte.isDigit b then Byte.digit b else (Byte.toLower b).toNat - 87

/-- The nearest double precision number to `mantissa * 2 ^ exponent`, with the exponent cut off
where every number is infinite or zero. -/
def ofBinaryScientific (negative : Bool) (mantissa : Nat) (exponent : Int) : Binary64 :=
  let top := Nat.log2 mantissa + exponent
  if mantissa = 0 then .zero negative
  else if 1100 < top then .infinity negative
  else if top < -1200 then .zero negative
  else .ofRatio negative (mantissa * pow2 exponent.toNat) (pow2 (-exponent).toNat)

/-- A hexadecimal numeral after its `0x`. -/
def hexadecimal? (negative : Bool) (t : Text) : Option (Binary64 × Text) :=
  let (whole, fraction, rest) := digitsAndFraction isHexDigit t
  if whole.isEmpty && fraction.isEmpty then none
  else
    let (e, rest) := exponent (fun b => Byte.toLower b = ascii 'p') rest
    let mantissa := (whole ++ fraction).foldl (fun n b => 16 * n + hexDigit b) 0
    some (ofBinaryScientific negative mantissa (e - 4 * fraction.length), rest)

/-- Drops a word at the start, in any case. -/
def dropWord? (word t : Text) : Option Text :=
  if Text.toLower (t.take word.length) = word then some (t.drop word.length) else none

/-- The parenthesised payload that may follow a NaN. -/
def dropPayload : Text → Text
  | b :: rest =>
    match rest.dropWhile Byte.isWord with
    | c :: after => if b = ascii '(' && c = ascii ')' then after else b :: rest
    | [] => b :: rest
  | [] => []

/-- A numeral without its sign, and the text after it. -/
def unsigned? (negative : Bool) (t : Text) : Option (Binary64 × Text) :=
  match dropWord? "infinity" t, dropWord? "inf" t, dropWord? "nan" t, dropWord? "0x" t with
  | some rest, _, _, _ => some (.infinity negative, rest)
  | _, some rest, _, _ => some (.infinity negative, rest)
  | _, _, some rest, _ => some (.nan, dropPayload rest)
  | _, _, _, some rest =>
    match hexadecimal? negative rest with
    | some found => some found
    | none => some (.zero negative, t.drop 1)
  | _, _, _, _ => (decimal? t).map fun (x, rest) => (x.toBinary64 negative, rest)

/-- The longest numeral at the start of a text, after white space and an optional sign, and the
text after it. -/
def float? (t : Text) : Option (Binary64 × Text) :=
  match t.dropWhile Byte.isSpace with
  | b :: rest =>
    if b = ascii '-' then unsigned? true rest
    else if b = ascii '+' then unsigned? false rest
    else unsigned? false (b :: rest)
  | [] => none

/-- An optional minus sign and digits, all of the text, within the signed 64-bit range. -/
def int64? (t : Text) : Option Int64 :=
  let (negative, digits) : Bool × Text :=
    match t with
    | b :: rest => if b = ascii '-' then (true, rest) else (false, t)
    | [] => (false, [])
  if digits.isEmpty || !digits.all Byte.isDigit then none
  else
    let n : Int := if negative then -(Text.toNat digits : Int) else Text.toNat digits
    if Int64.minValue.toInt ≤ n ∧ n ≤ Int64.maxValue.toInt then some (.ofInt n) else none

end Numeral

end Clausal
