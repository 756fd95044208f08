import Clausal.Number.Fraction
import Clausal.Error

/-!
# First-order notation

What the notations for first-order formulas have in common: floats become fractions, and weights
and observations cannot be expressed.
-/

namespace Clausal

namespace FirstOrder

def rational (x : Binary64) : Except Error Text :=
  match Fraction.ofBinary64 Fraction.defaultLimit x with
  | .ok q => .ok ("rational(" ++ Text.ofInt q.num ++ "," ++ Text.ofNat q.den ++ ")")
  | .error e => .error (.notRational e.message)

def unsupported (s : Sentence) : Error :=
  match s with
  | .weighted .. => .noFirstOrderReading s
  | .evidence .. => .noFirstOrderReading s
  | _ => .notFormula s.kind

end FirstOrder

end Clausal
