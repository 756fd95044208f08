import Clausal.Text.Quoted
import Clausal.Number.Shortest

/-!
# Constants

The values that stand as arguments of a term.
-/

namespace Clausal

/-- A constant: null, a truth value, a 64-bit integer, a double precision number or a text. -/
inductive Value where
  | null
  | bool (b : Bool)
  | int (n : Int64)
  | float (x : Binary64)
  | string (t : Text)
deriving DecidableEq, Inhabited

namespace Value

/-- Equality of constants of one type; numbers are compared by their value. -/
def same : Value → Value → Bool
  | .null, .null => true
  | .bool a, .bool b => a == b
  | .int m, .int n => m == n
  | .float x, .float y => x.numEq y
  | .string s, .string t => s == t
  | _, _ => false

def boolText (b : Bool) : Text := if b then "true" else "false"

def intText (n : Int64) : Text := Text.ofInt n.toInt

/-- The text of a constant inside a printed sentence. -/
def text : Value → Text
  | .null => "null"
  | .bool b => boolText b
  | .int n => intText n
  | .float x => x.text
  | .string t => Text.singleQuoted t

end Value

end Clausal
