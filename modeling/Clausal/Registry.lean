import Clausal.Error
import Clausal.Graph

/-!
# The registry

A registry holds the declared types and predicates of a theory. It only grows: declaring the same
thing again changes nothing, and any other declaration of a declared name is refused. A type is a
primitive or an alias of one or more types; an alias that would close a cycle is refused, while a
target need not be declared until the type is resolved.
-/

namespace Clausal

/-- A declared type. A plain alias has one target, a union one or more. -/
structure TypeAlias where
  name : Text
  targets : List Text
  isUnion : Bool
deriving DecidableEq, Inhabited

structure Predicate where
  name : Text
  arguments : List TypedName
  description : Text
  parents : List Text
deriving DecidableEq, Inhabited

def Predicate.arity (p : Predicate) : Nat := p.arguments.length

/-- The types that need no declaration. -/
def primitiveTypes : List Text :=
  ["str", "int", "float", "bool", "date", "datetime", "decimal", "any"]

def isPrimitive (name : Text) : Bool := primitiveTypes.contains name

/-- The primitives whose values are numbers. -/
def numericTypes : List Text := ["int", "float", "decimal"]

/-- How the values of a type are held: as numbers or as symbols. -/
inductive ScalarKind where
  | symbol
  | number
deriving DecidableEq, Inhabited

/-- The declared types and predicates, each in order of declaration. -/
structure Registry where
  types : List TypeAlias
  predicates : List Predicate
deriving DecidableEq, Inhabited

namespace Registry

def empty : Registry := ⟨[], []⟩

def alias? (r : Registry) (name : Text) : Option TypeAlias :=
  r.types.find? fun a => a.name = name

def predicate? (r : Registry) (name : Text) : Option Predicate :=
  r.predicates.find? fun p => p.name = name

/-- An edge from each alias to each of its targets. -/
def aliasEdges (r : Registry) : List (Edge Text) :=
  r.types.flatMap fun a => a.targets.map fun target => ⟨a.name, target⟩

/-- The first target through which a new alias would lead back to itself. -/
def cyclicTarget? (r : Registry) (a : TypeAlias) : Option Text :=
  let graph := Graph.ofEdges r.aliasEdges
  a.targets.find? fun target => graph.reaches target a.name

def declareAlias (r : Registry) (a : TypeAlias) : Except Error Registry :=
  if isPrimitive a.name then .error (.primitiveRedeclared a.name)
  else
    match r.alias? a.name with
    | some known => if known = a then .ok r else .error (.typeRedeclared a.name)
    | none =>
      match r.cyclicTarget? a with
      | some target => .error (.cyclicType a.name target)
      | none => .ok { r with types := r.types ++ [a] }

def declareType (r : Registry) (name target : Text) : Except Error Registry :=
  r.declareAlias ⟨name, [target], false⟩

def declareUnion (r : Registry) (name : Text) (alternatives : List Text) :
    Except Error Registry :=
  if alternatives.isEmpty then .error (.emptyUnionType name)
  else r.declareAlias ⟨name, alternatives, true⟩

/-- The first name that occurs again later in the list. -/
def firstRepeated? : List Text → Option Text
  | [] => none
  | name :: rest => if rest.contains name then some name else firstRepeated? rest

def declarePredicate (r : Registry) (p : Predicate) : Except Error Registry :=
  match r.predicate? p.name with
  | some known => if known = p then .ok r else .error (.predicateRedeclared p.name)
  | none =>
    match firstRepeated? (p.arguments.map TypedName.name) with
    | some argument => .error (.repeatedArgument p.name argument)
    | none => .ok { r with predicates := r.predicates ++ [p] }

/-- Resolution gives up below this many alias steps. -/
def maxAliasDepth : Nat := 64

/-- The primitives at the leaves of a type, from left to right, found within `depth` levels. -/
def leaves (r : Registry) : Nat → Text → Except Error (List Text)
  | 0, name => .error (.aliasTooDeep name)
  | depth + 1, name =>
    if isPrimitive name then .ok [name]
    else
      match r.alias? name with
      | none => .error (.unresolvedType name)
      | some a => do return (← a.targets.mapM (leaves r depth)).flatten

/-- The primitives that a type stands for, each once, in order. -/
def resolve (r : Registry) (name : Text) : Except Error (List Text) := do
  return (← r.leaves (maxAliasDepth + 1) name).eraseDups

/-- A type is held as a number if all its primitives are numeric. -/
def scalarKind (r : Registry) (name : Text) : Except Error ScalarKind := do
  let primitives ← r.resolve name
  return if primitives.all numericTypes.contains then .number else .symbol

/-- Whether a term with these arguments agrees with the declaration of its predicate. -/
def checkTerm (r : Registry) (predicate : Text) (args : List Sentence) : Except Error Unit :=
  match r.predicate? predicate with
  | some p =>
    if p.arity = args.length then .ok () else .error (.wrongArity predicate args p.arity)
  | none => .ok ()

mutual

/-- Checks that every term inside a sentence has the declared number of arguments. -/
def checkArity (r : Registry) : Sentence → Except Error Unit
  | .term p args => do
    r.checkTerm p args
    checkArities r args
  | .var .. => .ok ()
  | .const .. => .ok ()
  | .neg s => checkArity r s
  | .conj ss => checkArities r ss
  | .disj ss => checkArities r ss
  | .implies a b => do
    checkArity r a
    checkArity r b
  | .iff a b => do
    checkArity r a
    checkArity r b
  | .forAll _ s => checkArity r s
  | .forSome _ s => checkArity r s
  | .weighted _ s => checkArity r s
  | .evidence _ s => checkArity r s
  | .missing => .ok ()

def checkArities (r : Registry) : List Sentence → Except Error Unit
  | [] => .ok ()
  | s :: ss => do
    checkArity r s
    checkArities r ss

end

def checkArity? (r : Option Registry) (s : Sentence) : Except Error Unit :=
  match r with
  | some r => r.checkArity s
  | none => .ok ()

end Registry

end Clausal
