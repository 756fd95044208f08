import Clausal.Theory

/-!
# Parent predicates

A predicate may list parents, which hold wherever it holds. Each of them gives a sentence: for all
arguments, the predicate implies the parent. The parent is applied to the arguments it names, or
to all of them in order where names do not match and the numbers of arguments agree.
-/

namespace Clausal

namespace Predicate

def vars (p : Predicate) : List Sentence := p.arguments.map fun a => .var a.name []

/-- The arguments to which a parent is applied, unless the two signatures do not match. -/
def parentArguments? (child : Predicate) (parent : Option Predicate) : Option (List Sentence) :=
  match parent with
  | none => some child.vars
  | some parent =>
    if parent.arguments.all fun a => (child.arguments.map TypedName.name).contains a.name then
      some parent.vars
    else if parent.arity = child.arity then some child.vars
    else none

/-- The sentence that a predicate implies a parent. -/
def parentSentence (child : Predicate) (parent : Text) (args : List Sentence) : Sentence :=
  .forAll child.arguments (.implies (.term child.name child.vars) (.term parent args))

end Predicate

namespace Theory

def inferredName : Text := "Inferred"

/-- The report on a parent whose signature does not match, after `index` inferred sentences. -/
def parentMismatch (child parent : Text) (index : Nat) : Diagnostic :=
  ⟨.arityMismatch,
    "parent " ++ parent ++ " of " ++ child ++ " shares no argument names and differs in arity",
    inferredName, index, []⟩

/-- Every declared predicate with each of its parents. -/
def parentPairs (r : Registry) : List (Predicate × Text) :=
  r.predicates.flatMap fun p => p.parents.map fun parent => (p, parent)

/-- The sentences for all parents, with reports on those that do not match. -/
def parentSentences (r : Registry) : List (Predicate × Text) → List Sentence →
    List Sentence × List Diagnostic
  | [], found => (found, [])
  | (child, parent) :: rest, found =>
    match child.parentArguments? (r.predicate? parent) with
    | some args => parentSentences r rest (found ++ [child.parentSentence parent args])
    | none =>
      let (sentences, diagnostics) := parentSentences r rest found
      (sentences, parentMismatch child.name parent found.length :: diagnostics)

/-- The group of sentences that follow from the parents of predicates. -/
def parentGroup (t : Theory) : SentenceGroup × List Diagnostic :=
  let (sentences, diagnostics) := parentSentences t.registry (parentPairs t.registry) []
  (⟨inferredName, .assumed, "Subsumption axioms derived from predicate parents", sentences⟩,
    diagnostics)

end Theory

end Clausal
