import Clausal.Sentence

/-!
# Variables and substitution

The free variables of a sentence, as a sorted list without repetition, and the replacement of
free variables by sentences.
-/

namespace Clausal

namespace Names

def insert (name : Text) : List Text → List Text
  | [] => [name]
  | other :: rest =>
    if name = other then other :: rest
    else if Text.less name other then name :: other :: rest
    else other :: insert name rest

/-- The names of a list, sorted and without repetition. -/
def ofList (names : List Text) : List Text := names.foldr insert []

end Names

/-- A replacement of variables; the first entry for a name counts. -/
abbrev Substitution := List (Text × Sentence)

namespace Sentence

mutual

/-- The free variables other than `bound`, as often and in the order in which they occur. -/
def freeIn (bound : List Text) : Sentence → List Text
  | .term _ args => freeInAll bound args
  | .var name _ => if bound.contains name then [] else [name]
  | .const _ => []
  | .neg s => freeIn bound s
  | .conj ss => freeInAll bound ss
  | .disj ss => freeInAll bound ss
  | .implies a b => freeIn bound a ++ freeIn bound b
  | .iff a b => freeIn bound a ++ freeIn bound b
  | .forAll vars s => freeIn (vars.map TypedName.name ++ bound) s
  | .forSome vars s => freeIn (vars.map TypedName.name ++ bound) s
  | .weighted _ s => freeIn bound s
  | .evidence _ s => freeIn bound s
  | .missing => []

def freeInAll (bound : List Text) : List Sentence → List Text
  | [] => []
  | s :: ss => freeIn bound s ++ freeInAll bound ss

end

/-- The names of the free variables, sorted. -/
def freeVars (s : Sentence) : List Text := Names.ofList (freeIn [] s)

/-- A substitution without the entries for some bound variables. -/
def withoutBound (vars : List TypedName) (m : Substitution) : Substitution :=
  m.filter fun entry => !(vars.map TypedName.name).contains entry.1

mutual

/-- Replaces the free occurrences of variables. -/
def substitute (m : Substitution) : Sentence → Sentence
  | .term p args => .term p (substituteAll m args)
  | .var name type => (m.lookup name).getD (.var name type)
  | .const v => .const v
  | .neg s => .neg (substitute m s)
  | .conj ss => .conj (substituteAll m ss)
  | .disj ss => .disj (substituteAll m ss)
  | .implies a b => .implies (substitute m a) (substitute m b)
  | .iff a b => .iff (substitute m a) (substitute m b)
  | .forAll vars s => .forAll vars (substitute (withoutBound vars m) s)
  | .forSome vars s => .forSome vars (substitute (withoutBound vars m) s)
  | .weighted w s => .weighted w (substitute m s)
  | .evidence holds s => .evidence holds (substitute m s)
  | .missing => .missing

def substituteAll (m : Substitution) : List Sentence → List Sentence
  | [] => []
  | s :: ss => substitute m s :: substituteAll m ss

end

/-- Whether a substitution leaves a sentence untouched: no free variable of it is replaced. -/
def untouchedBy (m : Substitution) (s : Sentence) : Bool :=
  s.freeVars.all fun name => (m.lookup name).isNone

/-- The universal closure, with the free variables bound in order. -/
def closure (s : Sentence) : Sentence :=
  match s.freeVars with
  | [] => s
  | names => .forAll (names.map fun name => ⟨name, []⟩) s

end Sentence

end Clausal
