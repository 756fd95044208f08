/-!
# Byte text

All text is a sequence of bytes. Names, documents and generated programs may hold any byte, so
columns count bytes, case maps and character classes know ASCII only, and sorting is bytewise.
String literals stand for their UTF-8 bytes.
-/

namespace Clausal

/-- A sequence of bytes. -/
abbrev Text := List UInt8

/-- The byte of an ASCII character. -/
abbrev ascii (c : Char) : UInt8 := c.toUInt8

namespace Byte

def isDigit (b : UInt8) : Bool := ascii '0' ≤ b && b ≤ ascii '9'

def isUpper (b : UInt8) : Bool := ascii 'A' ≤ b && b ≤ ascii 'Z'

def isLower (b : UInt8) : Bool := ascii 'a' ≤ b && b ≤ ascii 'z'

def isAlpha (b : UInt8) : Bool := isUpper b || isLower b

def isAlnum (b : UInt8) : Bool := isAlpha b || isDigit b

/-- Space, tab, line feed, vertical tab, form feed and carriage return. -/
def isSpace (b : UInt8) : Bool := b == ascii ' ' || (9 ≤ b && b ≤ 13)

/-- A byte of a name: a letter, a digit or an underscore. -/
def isWord (b : UInt8) : Bool := isAlnum b || b == ascii '_'

def toLower (b : UInt8) : UInt8 := if isUpper b then b + 32 else b

def toUpper (b : UInt8) : UInt8 := if isLower b then b - 32 else b

/-- The value of a decimal digit. -/
def digit (b : UInt8) : Nat := b.toNat - 48

end Byte

namespace Text

/-- The UTF-8 bytes of a string. -/
def ofString (s : String) : Text := s.toUTF8.data.toList

instance : Coe String Text := ⟨ofString⟩

/-- Decimal digits, without leading zeros. -/
def ofNat (n : Nat) : Text := (Nat.toDigits 10 n).map ascii

/-- Decimal digits after a minus sign for a negative number. -/
def ofInt : Int → Text
  | .ofNat n => ofNat n
  | .negSucc n => ascii '-' :: ofNat (n + 1)

/-- The number written by a run of decimal digits. -/
def toNat (digits : Text) : Nat := digits.foldl (fun n b => 10 * n + Byte.digit b) 0

/-- The parts one after another with `separator` between neighbours. -/
def join (separator : Text) (parts : List Text) : Text := List.intercalate separator parts

/-- The parts of a text between occurrences of `delimiter`, empty parts included. -/
def split (delimiter : UInt8) : Text → List Text
  | [] => [[]]
  | b :: rest =>
    if b = delimiter then [] :: split delimiter rest
    else
      match split delimiter rest with
      | [] => [[b]]
      | part :: parts => (b :: part) :: parts

/-- Space, tab, carriage return and line feed are trimmed. -/
def isTrimmed (b : UInt8) : Bool := b == ascii ' ' || b == 9 || b == 13 || b == 10

/-- Drops blanks at both ends. -/
def trim (t : Text) : Text := ((t.dropWhile isTrimmed).reverse.dropWhile isTrimmed).reverse

def toLower (t : Text) : Text := t.map Byte.toLower

/-- The part before the first zero byte. -/
def beforeNul (t : Text) : Text := t.takeWhile (· != 0)

/-- Bytewise order, a proper initial part first. -/
def less (s t : Text) : Bool := decide (s < t)

end Text

end Clausal
