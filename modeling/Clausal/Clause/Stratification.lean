import Clausal.Graph.Components
import Clausal.Clause

/-!
# Stratification

A predicate depends on the predicates in the bodies of its rules. A rule is unstratified if it
negates a predicate in the component of its head, one that depends on its head in turn.
-/

namespace Clausal

namespace Sentence

/-- The predicate of a term, unless that has a fixed meaning. -/
def relation? : Sentence → Option Text
  | .term p _ => if isBuiltin p then none else some p
  | _ => none

/-- The predicate of a literal that is a term or a negated term. -/
def literalRelation? : Sentence → Option Text
  | .neg s => s.relation?
  | s => s.relation?

/-- The predicate of a literal that is a negated term. -/
def negatedRelation? : Sentence → Option Text
  | .neg s => s.relation?
  | _ => none

end Sentence

namespace Clause

def headRelation? (c : Clause) : Option Text :=
  match c.head with
  | some (.term p _) => some p
  | _ => none

/-- An edge from the predicate of the head to that of each literal of the body. -/
def dependencies (c : Clause) : List (Edge Text) :=
  match c.headRelation? with
  | some head => (c.body.filterMap Sentence.literalRelation?).map fun p => ⟨head, p⟩
  | none => []

/-- Whether a clause negates a predicate in the component of that of the head. -/
def isUnstratified (components : Components Text) (c : Clause) : Bool :=
  match c.headRelation? with
  | some head =>
    (c.body.filterMap Sentence.negatedRelation?).any fun p => components.together p head
  | none => false

end Clause

/-- The components of the predicates that depend on each other in a list of clauses. -/
def dependencyComponents (clauses : List Clause) : Components Text :=
  .ofEdges (clauses.flatMap Clause.dependencies)

/-- The numbers of the unstratified rules in a list of clauses. -/
def unstratifiedRules (clauses : List Clause) : List Nat :=
  let components := dependencyComponents clauses
  clauses.zipIdx.filterMap fun (c, i) => if c.isUnstratified components then some i else none

end Clausal
