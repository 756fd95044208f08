import Clausal.Text

/-!
# Infix operators

Comparisons and arithmetic on two arguments are written with a sign between them.
-/

namespace Clausal

namespace Operator

def signs : List (Text × Text) :=
  [("eq", "="), ("ne", "!="), ("lt", "<"), ("le", "<="), ("gt", ">"), ("ge", ">="),
    ("add", "+"), ("sub", "-"), ("mul", "*"), ("truediv", "/")]

/-- The signs of Prolog, where `==` compares without unification. -/
def prologSigns : List (Text × Text) :=
  [("eq", "=="), ("ne", "\\=="), ("lt", "<"), ("le", "=<"), ("gt", ">"), ("ge", ">="),
    ("add", "+"), ("sub", "-"), ("mul", "*"), ("truediv", "/")]

/-- Two operands with a sign between them, in parentheses inside another term. -/
def between (nested : Bool) (sign left right : Text) : Text :=
  let text := left ++ " " ++ sign ++ " " ++ right
  if nested then "(" ++ text ++ ")" else text

end Operator

end Clausal
