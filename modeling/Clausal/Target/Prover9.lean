import Clausal.Target.FirstOrder
import Clausal.Target.Operator

/-!
# Prover9 formulas

First-order formulas in the notation of Prover9. Predicates keep their case, variables are in lower
case, and texts become identifiers.
-/

namespace Clausal

namespace Prover9

/-- A text as an identifier: everything but letters and digits becomes an underscore. -/
def identifier (t : Text) : Text :=
  "s_" ++ t.map fun b => if Byte.isAlnum b then b else ascii '_'

def constant : Value → Except Error Text
  | .null => .ok "null"
  | .bool b => .ok (Value.boolText b)
  | .int n => .ok (Value.intText n)
  | .float x => FirstOrder.rational x
  | .string t => .ok (identifier t)

/-- A predicate or function applied to arguments; an operator inside another term is put in
parentheses. -/
def applied (nested : Bool) (predicate : Text) (args : List Text) : Text :=
  match Operator.signs.lookup predicate, args with
  | some sign, [a, b] => Operator.between nested sign a b
  | _, [] => predicate
  | _, args => predicate ++ "(" ++ Text.join ", " args ++ ")"

mutual

def argument : Sentence → Except Error Text
  | .var name _ => .ok name.toLower
  | .const v => constant v
  | .term p args => do return applied true p (← arguments args)
  | s => .error (FirstOrder.unsupported s)

def arguments : List Sentence → Except Error (List Text)
  | [] => .ok []
  | s :: ss => do
    let first ← argument s
    return first :: (← arguments ss)

end

def quantified (word : Text) (vars : List TypedName) (body : Text) : Text :=
  if vars.isEmpty then body
  else word ++ (vars.flatMap fun v => ascii ' ' :: v.name.toLower) ++ " (" ++ body ++ ")"

mutual

def formula : Sentence → Except Error Text
  | .term p args => do return applied false p (← arguments args)
  | .neg s => do return "- ( " ++ (← formula s) ++ " )"
  | .conj [] => .ok "$T"
  | .conj (s :: ss) => do
    let first ← formula s
    return "(" ++ Text.join " & " (first :: (← formulas ss)) ++ ")"
  | .disj [] => .ok "$F"
  | .disj (s :: ss) => do
    let first ← formula s
    return "(" ++ Text.join " | " (first :: (← formulas ss)) ++ ")"
  | .implies a b => do
    let left ← formula a
    return "(" ++ left ++ " -> " ++ (← formula b) ++ ")"
  | .iff a b => do
    let left ← formula a
    return "(" ++ left ++ " <-> " ++ (← formula b) ++ ")"
  | .forAll vars s => do return quantified "all" vars (← formula s)
  | .forSome vars s => do return quantified "exists" vars (← formula s)
  | s => .error (FirstOrder.unsupported s)

def formulas : List Sentence → Except Error (List Text)
  | [] => .ok []
  | s :: ss => do
    let first ← formula s
    return first :: (← formulas ss)

end

/-- Formulas in a list, each on a line. -/
def formulaList (label : Text) (formulas : List Text) : Text :=
  let line (f : Text) : Text := "    " ++ f ++ ".\n"
  "formulas(" ++ label ++ ").\n" ++ formulas.flatMap line ++ "end_of_list.\n"

def problem (name : Text) (assumptions goals : List Text) : Text :=
  "% Problem: " ++ name ++ "\n" ++ formulaList "assumptions" assumptions ++ "\n" ++
    formulaList "goals" goals

end Prover9

end Clausal
