import Clausal.Clause
import Clausal.Target
import Clausal.Target.Operator

/-!
# Souffle notation

Terms, literals and rules of Datalog as Souffle writes them. Predicates keep their case, variables
are in lower case and texts are in double quotes. A negated comparison is written as the
complementary comparison.
-/

namespace Clausal

namespace Souffle

/-- The comparison that holds where another one fails. -/
def complements : List (Text × Text) :=
  [("eq", "ne"), ("ne", "eq"), ("lt", "ge"), ("ge", "lt"), ("le", "gt"), ("gt", "le")]

def constant : Value → Text
  | .null => "\"null\""
  | .bool b => ascii '"' :: Value.boolText b ++ "\""
  | .int n => Value.intText n
  | .float x => x.text
  | .string t => Text.doubleQuoted t

/-- A predicate applied to arguments; an operator inside another term is put in parentheses. -/
def applied (nested : Bool) (predicate : Text) (args : List Text) : Text :=
  match Operator.signs.lookup predicate, args with
  | some sign, [a, b] => Operator.between nested sign a b
  | _, args => predicate ++ "(" ++ Text.join ", " args ++ ")"

mutual

def argument : Sentence → Except Error Text
  | .var name _ => .ok name.toLower
  | .const v => .ok (constant v)
  | .term p args => do return applied true p (← arguments args)
  | s => .error (.notDatalogArgument s.kind)

def arguments : List Sentence → Except Error (List Text)
  | [] => .ok []
  | s :: ss => do
    let first ← argument s
    return first :: (← arguments ss)

end

/-- A predicate applied to arguments, not inside another term. -/
def atom (p : Text) (args : List Sentence) : Except TargetFault Text := do
  return applied false p (← TargetFault.ofError (arguments args))

/-- A negated term. The complementary comparison is a term of its own and has to be built. -/
def negatedAtom (p : Text) (args : List Sentence) : Except TargetFault Text :=
  match complements.lookup p, args with
  | some complement, [a, b] => do
    let _ ← TargetFault.ofBuild (Sentence.Build.term complement [a, b])
    atom complement [a, b]
  | _, _ => do return ascii '!' :: (← atom p args)

/-- A literal: a term or a negated term. -/
def literal : Sentence → Except TargetFault Text
  | .term p args => atom p args
  | .neg (.term p args) => negatedAtom p args
  | .disj ss => .error (.refused (.inlineDisjunction (.disj ss)))
  | s => .error (.refused (.noDatalogLiteral s))

/-- A rule or a fact with its full stop. -/
def clause (c : Clause) : Except TargetFault Text :=
  match c.weight, c.head with
  | some _, _ => .error (.refused (.weightedClause c.text))
  | none, none => .error (.refused (.constraintClause c.text))
  | none, some head => do
    let head ← literal head
    return head ++ c.neck ++ Text.join ", " (← c.body.mapM literal) ++ "."

end Souffle

end Clausal
