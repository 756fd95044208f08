import Clausal.Text.Identifier
import Clausal.Target.FirstOrder

/-!
# TPTP formulas

First-order formulas in the notation of the TPTP library. Floats become fractions.
-/

namespace Clausal

namespace Tptp

def constant : Value → Except Error Text
  | .null => .ok "null"
  | .bool b => .ok (Value.boolText b)
  | .int n => .ok (Value.intText n)
  | .float x => FirstOrder.rational x
  | .string t => .ok (Text.singleQuoted t)

/-- A predicate or function applied to arguments; equations are infix. -/
def applied (predicate : Text) (args : List Text) : Text :=
  match args with
  | [] => Text.atom predicate.toLower
  | [a, b] =>
    if predicate = "eq" then a ++ " = " ++ b
    else if predicate = "ne" then a ++ " != " ++ b
    else Text.atom predicate.toLower ++ "(" ++ a ++ ", " ++ b ++ ")"
  | args => Text.atom predicate.toLower ++ "(" ++ Text.join ", " args ++ ")"

mutual

def argument : Sentence → Except Error Text
  | .var name _ => .ok (Text.upperCamel name)
  | .const v => constant v
  | .term p args => do return applied p (← arguments args)
  | s => .error (FirstOrder.unsupported s)

def arguments : List Sentence → Except Error (List Text)
  | [] => .ok []
  | s :: ss => do
    let first ← argument s
    return first :: (← arguments ss)

end

/-- Whether a formula is negated without parentheses. -/
def isTight : Sentence → Bool
  | .term p args => !(args.length == 2 && (p == Text.ofString "eq" || p == Text.ofString "ne"))
  | .conj _ => true
  | .disj _ => true
  | .implies .. => true
  | .iff .. => true
  | _ => false

def quantified (mark : Text) (vars : List TypedName) (body : Text) : Text :=
  if vars.isEmpty then body
  else
    mark ++ " [" ++ Text.join ", " (vars.map fun v => Text.upperCamel v.name) ++ "] : " ++ body

mutual

def formula : Sentence → Except Error Text
  | .term p args => do return applied p (← arguments args)
  | .neg s => do
    let body ← formula s
    return if isTight s then "~" ++ body else "~(" ++ body ++ ")"
  | .conj [] => .ok "$true"
  | .conj (s :: ss) => do
    let first ← formula s
    return "(" ++ Text.join " & " (first :: (← formulas ss)) ++ ")"
  | .disj [] => .ok "$false"
  | .disj (s :: ss) => do
    let first ← formula s
    return "(" ++ Text.join " | " (first :: (← formulas ss)) ++ ")"
  | .implies a b => do
    let left ← formula a
    return "(" ++ left ++ " => " ++ (← formula b) ++ ")"
  | .iff a b => do
    let left ← formula a
    return "(" ++ left ++ " <=> " ++ (← formula b) ++ ")"
  | .forAll vars s => do return quantified "!" vars (← formula s)
  | .forSome vars s => do return quantified "?" vars (← formula s)
  | s => .error (FirstOrder.unsupported s)

def formulas : List Sentence → Except Error (List Text)
  | [] => .ok []
  | s :: ss => do
    let first ← formula s
    return first :: (← formulas ss)

end

/-- Numbered lines with a role. -/
def lines (label role : Text) (formulas : List Text) : Text :=
  let line (formula : Text) (number : Nat) : Text :=
    "fof(" ++ label ++ Text.ofNat number ++ ", " ++ role ++ ", " ++ formula ++ ").\n"
  (formulas.zipIdx 1).flatMap fun (formula, number) => line formula number

def problem (name : Text) (assumptions goals : List Text) : Text :=
  "% Problem: " ++ name ++ "\n" ++ lines "axiom" "axiom" assumptions ++
    lines "goal" "conjecture" goals

end Tptp

end Clausal
