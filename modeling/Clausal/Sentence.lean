import Clausal.Value

/-!
# Sentences

A sentence is a tree of terms under connectives and quantifiers. The arguments of a term are
normally terms, variables and constants, but substitution can put any sentence there. A weight
and an observation are annotations that only some target languages can express.

A sentence may be missing, on its own or as a part of another one. Such a part can only come from a
substitution, because checked construction refuses it.
-/

namespace Clausal

/-- A name with a declared type, which is empty where none is declared. -/
structure TypedName where
  name : Text
  type : Text
deriving DecidableEq, Inhabited

/-- A sentence of typed first-order logic. -/
inductive Sentence where
  /-- A predicate applied to arguments, or a compound argument. -/
  | term (predicate : Text) (args : List Sentence)
  | var (name type : Text)
  | const (value : Value)
  | neg (operand : Sentence)
  /-- Conjunction; without operands it is true. -/
  | conj (operands : List Sentence)
  /-- Disjunction; without operands it is false. -/
  | disj (operands : List Sentence)
  | implies (antecedent consequent : Sentence)
  | iff (left right : Sentence)
  | forAll (vars : List TypedName) (body : Sentence)
  | forSome (vars : List TypedName) (body : Sentence)
  /-- A sentence that holds with a probability. -/
  | weighted (weight : Binary64) (body : Sentence)
  /-- A sentence observed to hold or not to hold. -/
  | evidence (holds : Bool) (body : Sentence)
  /-- No sentence where one is expected. -/
  | missing
deriving Inhabited

inductive SentenceKind where
  | term
  | var
  | const
  | neg
  | conj
  | disj
  | implies
  | iff
  | forAll
  | forSome
  | weighted
  | evidence
  | missing
deriving DecidableEq, Inhabited

namespace SentenceKind

def all : List SentenceKind :=
  [.term, .var, .const, .neg, .conj, .disj, .implies, .iff, .forAll, .forSome, .weighted,
    .evidence, .missing]

/-- The name of a form in documents and messages. A missing sentence has no form. -/
def name : SentenceKind → Text
  | .term => "Term"
  | .var => "Variable"
  | .const => "Constant"
  | .neg => "Not"
  | .conj => "And"
  | .disj => "Or"
  | .implies => "Implies"
  | .iff => "Iff"
  | .forAll => "Forall"
  | .forSome => "Exists"
  | .weighted => "Probability"
  | .evidence => "Evidence"
  | .missing => "?"

end SentenceKind

namespace Sentence

def kind : Sentence → SentenceKind
  | .term .. => .term
  | .var .. => .var
  | .const .. => .const
  | .neg .. => .neg
  | .conj .. => .conj
  | .disj .. => .disj
  | .implies .. => .implies
  | .iff .. => .iff
  | .forAll .. => .forAll
  | .forSome .. => .forSome
  | .weighted .. => .weighted
  | .evidence .. => .evidence
  | .missing => .missing

/-- The immediate parts of a sentence, in order. -/
def children : Sentence → List Sentence
  | .term _ args => args
  | .var .. => []
  | .const .. => []
  | .neg s => [s]
  | .conj ss => ss
  | .disj ss => ss
  | .implies a b => [a, b]
  | .iff a b => [a, b]
  | .forAll _ s => [s]
  | .forSome _ s => [s]
  | .weighted _ s => [s]
  | .evidence _ s => [s]
  | .missing => []

def isTerm : Sentence → Bool
  | .term .. => true
  | _ => false

def isNeg : Sentence → Bool
  | .neg .. => true
  | _ => false

def isMissing : Sentence → Bool
  | .missing => true
  | _ => false

/-- The negation; that of a negation is its operand. -/
def negate : Sentence → Sentence
  | .neg s => s
  | s => .neg s

/-- The variables of the outermost universal quantifiers and the sentence below them. -/
def stripForAll : Sentence → List TypedName × Sentence
  | .forAll vars s =>
    let (inner, body) := stripForAll s
    (vars ++ inner, body)
  | s => ([], s)

mutual

/-- Equality of form and content, where numbers are compared by their value. -/
def same : Sentence → Sentence → Bool
  | .term p as, .term q bs => p == q && sameAll as bs
  | .var n t, .var m u => n == m && t == u
  | .const v, .const w => v.same w
  | .neg s, .neg t => same s t
  | .conj ss, .conj ts => sameAll ss ts
  | .disj ss, .disj ts => sameAll ss ts
  | .implies a b, .implies c d => same a c && same b d
  | .iff a b, .iff c d => same a c && same b d
  | .forAll vs s, .forAll ws t => vs == ws && same s t
  | .forSome vs s, .forSome ws t => vs == ws && same s t
  | .weighted x s, .weighted y t => x.numEq y && same s t
  | .evidence h s, .evidence k t => h == k && same s t
  | .missing, .missing => true
  | _, _ => false

def sameAll : List Sentence → List Sentence → Bool
  | [], [] => true
  | s :: ss, t :: ts => same s t && sameAll ss ts
  | _, _ => false

end

mutual

/-- Whether a sentence has no variable in it. -/
def isGround : Sentence → Bool
  | .term _ args => allGround args
  | .var .. => false
  | .const .. => true
  | .neg s => isGround s
  | .conj ss => allGround ss
  | .disj ss => allGround ss
  | .implies a b => isGround a && isGround b
  | .iff a b => isGround a && isGround b
  | .forAll _ s => isGround s
  | .forSome _ s => isGround s
  | .weighted _ s => isGround s
  | .evidence _ s => isGround s
  | .missing => true

def allGround : List Sentence → Bool
  | [] => true
  | s :: ss => isGround s && allGround ss

end

end Sentence

/-- The comparisons every target language knows. -/
def comparisons : List Text := ["eq", "ne", "lt", "le", "gt", "ge"]

/-- The arithmetic operations every target language knows. -/
def arithmetic : List Text := ["add", "sub", "mul", "truediv"]

def isComparison (predicate : Text) : Bool := comparisons.contains predicate

def isArithmetic (predicate : Text) : Bool := arithmetic.contains predicate

/-- Whether a predicate has a fixed meaning in every target language. -/
def isBuiltin (predicate : Text) : Bool := isComparison predicate || isArithmetic predicate

end Clausal
