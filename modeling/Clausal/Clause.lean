import Clausal.Sentence.Builder
import Clausal.Sentence.Variables

/-!
# Clauses

A clause is a head under a body of literals; without a head it is a constraint, and without a body
a fact. A literal is a term, a negated formula or an inline disjunction.
-/

namespace Clausal

/-- A branch of a ladder, a chain of exclusive conditions. Ladders are numbered within a sentence
and branches within a ladder. -/
structure Rung where
  ladder : Nat
  branch : Nat
deriving DecidableEq, Inhabited

/-- A clause, with the quantified variables of the sentence it comes from and the number of that
sentence in its group. -/
structure Clause where
  head : Option Sentence
  body : List Sentence
  vars : List TypedName
  weight : Option Binary64
  rung : Option Rung
  source : Nat
deriving Inhabited

namespace Clause

def isConstraint (c : Clause) : Bool := c.head.isNone

def isFact (c : Clause) : Bool := c.head.isSome && c.body.isEmpty

def sameWeight : Option Binary64 → Option Binary64 → Bool
  | none, none => true
  | some x, some y => x.numEq y
  | _, _ => false

def sameHead : Option Sentence → Option Sentence → Bool
  | none, none => true
  | some s, some t => s.same t
  | _, _ => false

/-- Equality of head, body and weight. -/
def same (c d : Clause) : Bool :=
  sameHead c.head d.head && Sentence.sameAll c.body d.body && sameWeight c.weight d.weight

/-- The arrow between head and body, which is there only with a body. -/
def neck (c : Clause) : Text :=
  if c.body.isEmpty then [] else if c.isConstraint then ":- " else " :- "

def text (c : Clause) : Text :=
  let weight : Text := match c.weight with
    | some w => w.text ++ "::"
    | none => []
  let head : Text := match c.head with
    | some h => h.text
    | none => []
  weight ++ head ++ c.neck ++ Text.join ", " (c.body.map Sentence.text)

/-- The conjunction of the body; a lone literal stands for itself. -/
def bodySentence (c : Clause) : Sentence :=
  match c.body with
  | [literal] => literal
  | body => .conj body

/-- What a clause says, without its variables and weight. -/
def matrix (c : Clause) : Sentence :=
  match c.head with
  | none => .neg c.bodySentence
  | some head => if c.body.isEmpty then head else .implies c.bodySentence head

/-- The sentence that a clause stands for. -/
def toSentence (c : Clause) : Except BuildFault Sentence :=
  let closed := if c.vars.isEmpty then c.matrix else .forAll c.vars c.matrix
  match c.weight with
  | none => .ok closed
  | some w => Sentence.Build.weighted w closed

end Clause

namespace Sentence

mutual

/-- The variables that a literal binds: those of its positive terms, where a disjunction binds
what each of its branches binds. -/
def positiveVars : Sentence → List Text
  | .term p args => if isBuiltin p then [] else (Sentence.term p args).freeVars
  | .conj ss => (positiveVarsOf ss).flatten
  | .disj (s :: ss) =>
    (positiveVars s).filter fun name => (positiveVarsOf ss).all fun vars => vars.contains name
  | _ => []

def positiveVarsOf : List Sentence → List (List Text)
  | [] => []
  | s :: ss => positiveVars s :: positiveVarsOf ss

end

end Sentence

/-- The variables bound by the body of a clause, sorted. -/
def Clause.boundVars (c : Clause) : List Text :=
  Names.ofList (Sentence.positiveVarsOf c.body).flatten

end Clausal
