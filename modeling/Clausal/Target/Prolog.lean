import Clausal.Text.Identifier
import Clausal.Clause
import Clausal.Target
import Clausal.Target.Operator

/-!
# Prolog notation

Terms, literals and clauses as Prolog writes them. Predicates are in lower case, variables in upper
camel case, and atoms are quoted unless they are plain identifiers. Comparisons and arithmetic are
infix operators, and negation is negation as failure.
-/

namespace Clausal

namespace Prolog

/-- The words for truth values and null, which a text must not be mistaken for. -/
def reserved : List Text := ["true", "false", "null"]

def constant : Value → Text
  | .null => "null"
  | .bool b => Value.boolText b
  | .int n => Value.intText n
  | .float x => x.text
  | .string t => if reserved.contains t then Text.singleQuoted t else Text.atom t

/-- A predicate applied to arguments; an operator inside another term is put in parentheses. -/
def applied (nested : Bool) (predicate : Text) (args : List Text) : Text :=
  match Operator.prologSigns.lookup predicate, args with
  | some sign, [a, b] => Operator.between nested sign a b
  | _, [] => Text.atom predicate.toLower
  | _, args => Text.atom predicate.toLower ++ "(" ++ Text.join ", " args ++ ")"

mutual

def argument : Sentence → Except TargetFault Text
  | .var name _ => .ok (Text.upperCamel name)
  | .const v => .ok (constant v)
  | .term p args => do return applied true p (← arguments args)
  | s => .error (.notPrologArgument s.kind)

def arguments : List Sentence → Except TargetFault (List Text)
  | [] => .ok []
  | s :: ss => do
    let first ← argument s
    return first :: (← arguments ss)

end

mutual

def literal : Sentence → Except TargetFault Text
  | .term p args => do return applied false p (← arguments args)
  | .neg s => do return "\\+ (" ++ (← literal s) ++ ")"
  | .conj [] => .ok "true"
  | .conj (s :: ss) => do
    let first ← literal s
    return Text.join ", " (first :: (← literals ss))
  | .disj [] => .ok "fail"
  | .disj (s :: ss) => do
    let first ← literal s
    return "(" ++ Text.join "; " (first :: (← literals ss)) ++ ")"
  | s => .error (.refused (.notPrologLiteral s.kind))

def literals : List Sentence → Except TargetFault (List Text)
  | [] => .ok []
  | s :: ss => do
    let first ← literal s
    return first :: (← literals ss)

end

/-- A clause with its full stop. The weight is not written. -/
def clause (c : Clause) : Except TargetFault Text := do
  let head ← match c.head with
    | some h => literal h
    | none => .ok []
  return head ++ c.neck ++ Text.join ", " (← literals c.body) ++ "."

/-- A declared predicate applied to variables named after its arguments. -/
def goal (p : Predicate) : Text :=
  applied false p.name (p.arguments.map fun a => Text.upperCamel a.name)

end Prolog

end Clausal
