import Clausal.Error
import Clausal.Number.Decimal

/-!
# Numbers in documents

The number that a numeral at a position of a document stands for. Integers have to fit into 64 bits
and floats have to be finite.
-/

namespace Clausal

namespace Numeral

def integerAt (pos : Position) (text : Text) : Except Error Int64 :=
  match int64? text with
  | some n => .ok n
  | none => .error (.malformed pos (.integerRange text))

/-- A float that was read from the numeral `text`. -/
def finiteAt (pos : Position) (text : Text) (x : Binary64) : Except Error Binary64 :=
  if x.isFinite then .ok x else .error (.malformed pos (.floatRange text))

def floatAt (pos : Position) (text : Text) : Except Error Binary64 :=
  match float? text with
  | some (x, _) => finiteAt pos text x
  | none => .error (.malformed pos (.floatRange text))

end Numeral

end Clausal
