import Clausal.Sentence.Printer
import Clausal.Sentence.Variables

/-!
# Checked construction

Sentences built from parts that come from outside. No part may be missing, a term takes only terms,
variables and constants as arguments, numbers are finite and weights lie between zero and one.
-/

namespace Clausal

/-- What can be wrong with the parts of a sentence. -/
inductive BuildFault where
  | missingOperand (kind : SentenceKind)
  | missingArgument (predicate : Text)
  | badArgument (predicate : Text) (kind : SentenceKind)
  | notFinite (x : Binary64)
  | badWeight (x : Binary64)
deriving DecidableEq

def BuildFault.message : BuildFault → Text
  | .missingOperand kind => "null operand passed to " ++ kind.name
  | .missingArgument predicate => "null argument passed to " ++ predicate
  | .badArgument predicate kind =>
    "argument of " ++ predicate ++ " must be a Term, Variable or Constant, got " ++ kind.name
  | .notFinite x => "constant must be finite, got " ++ x.text
  | .badWeight x => "probability weight must lie in [0,1], got " ++ x.text

namespace Sentence

/-- Whether a sentence may stand as an argument of a term. -/
def isArgument (s : Sentence) : Bool := s.kind = .term || s.kind = .var || s.kind = .const

namespace Build

/-- An operand that has to be there. -/
def operand (kind : SentenceKind) (s : Sentence) : Except BuildFault Sentence :=
  if s.isMissing then .error (.missingOperand kind) else .ok s

/-- An argument that has to be there and to be of the right form. -/
def argument (predicate : Text) (s : Sentence) : Except BuildFault Sentence :=
  if s.isMissing then .error (.missingArgument predicate)
  else if s.isArgument then .ok s
  else .error (.badArgument predicate s.kind)

def term (predicate : Text) (args : List Sentence) : Except BuildFault Sentence := do
  return .term predicate (← args.mapM (argument predicate))

def const : Value → Except BuildFault Sentence
  | .float x => if x.isFinite then .ok (.const (.float x)) else .error (.notFinite x)
  | v => .ok (.const v)

def neg (s : Sentence) : Except BuildFault Sentence := do
  return .neg (← operand .neg s)

def conj (ss : List Sentence) : Except BuildFault Sentence := do
  return .conj (← ss.mapM (operand .conj))

def disj (ss : List Sentence) : Except BuildFault Sentence := do
  return .disj (← ss.mapM (operand .disj))

def implies (a b : Sentence) : Except BuildFault Sentence := do
  return .implies (← operand .implies a) (← operand .implies b)

def iff (a b : Sentence) : Except BuildFault Sentence := do
  return .iff (← operand .iff a) (← operand .iff b)

def forAll (vars : List TypedName) (s : Sentence) : Except BuildFault Sentence := do
  return .forAll vars (← operand .forAll s)

def forSome (vars : List TypedName) (s : Sentence) : Except BuildFault Sentence := do
  return .forSome vars (← operand .forSome s)

/-- The weight is checked before the operand. -/
def weighted (w : Binary64) (s : Sentence) : Except BuildFault Sentence :=
  if w.isWeight then do return .weighted w (← operand .weighted s) else .error (.badWeight w)

def evidence (holds : Bool) (s : Sentence) : Except BuildFault Sentence := do
  return .evidence holds (← operand .evidence s)

end Build

mutual

/-- The first quantifier, from left to right, over a missing sentence. -/
def emptyQuantifier? : Sentence → Option SentenceKind
  | .term _ args => firstEmptyQuantifier? args
  | .var .. => none
  | .const .. => none
  | .neg s => emptyQuantifier? s
  | .conj ss => firstEmptyQuantifier? ss
  | .disj ss => firstEmptyQuantifier? ss
  | .implies a b => emptyQuantifier? a <|> emptyQuantifier? b
  | .iff a b => emptyQuantifier? a <|> emptyQuantifier? b
  | .forAll _ s => if s.isMissing then some .forAll else emptyQuantifier? s
  | .forSome _ s => if s.isMissing then some .forSome else emptyQuantifier? s
  | .weighted _ s => emptyQuantifier? s
  | .evidence _ s => emptyQuantifier? s
  | .missing => none

def firstEmptyQuantifier? : List Sentence → Option SentenceKind
  | [] => none
  | s :: ss => emptyQuantifier? s <|> firstEmptyQuantifier? ss

end

/-- Replaces the free occurrences of variables. A missing sentence may take the place of a variable
anywhere but right below a quantifier. -/
def Build.substitute (m : Substitution) (s : Sentence) : Except BuildFault Sentence :=
  match (s.substitute m).emptyQuantifier? with
  | some kind => .error (.missingOperand kind)
  | none => .ok (s.substitute m)

end Sentence

end Clausal
