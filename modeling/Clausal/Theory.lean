import Clausal.Registry
import Clausal.Sentence.Variables

/-!
# Theories

A theory is a name, a registry, groups of sentences, ground facts and keyed notes. Building one
never stops at a bad declaration or fact: it is skipped, and the reason is noted under a key of
its own.
-/

namespace Clausal

/-- What the sentences of a group are for. -/
inductive GroupKind where
  | plain
  | assumed
  | goal
deriving DecidableEq, Inhabited

namespace GroupKind

def all : List GroupKind := [.plain, .assumed, .goal]

def name : GroupKind → Text
  | .plain => "none"
  | .assumed => "axiom"
  | .goal => "goal"

def ofName? (name : Text) : Option GroupKind := all.find? fun kind => kind.name = name

end GroupKind

/-- Sentences under a common name. -/
structure SentenceGroup where
  name : Text
  kind : GroupKind
  docstring : Text
  sentences : List Sentence
deriving Inhabited

def SentenceGroup.same (g h : SentenceGroup) : Bool :=
  g.name == h.name && g.kind == h.kind && g.docstring == h.docstring &&
    Sentence.sameAll g.sentences h.sentences

def SentenceGroup.sameAll : List SentenceGroup → List SentenceGroup → Bool
  | [], [] => true
  | g :: gs, h :: hs => g.same h && sameAll gs hs
  | _, _ => false

/-- Keys with lists of values, sorted by key. -/
abbrev Notes := List (Text × List Text)

namespace Notes

/-- Appends values under a key, which is entered if it is new. -/
def add (key : Text) (values : List Text) : Notes → Notes
  | [] => [(key, values)]
  | (other, known) :: rest =>
    if key = other then (other, known ++ values) :: rest
    else if Text.less key other then (key, values) :: (other, known) :: rest
    else (other, known) :: add key values rest

def values (key : Text) (notes : Notes) : List Text := (notes.lookup key).getD []

end Notes

structure Theory where
  name : Text
  registry : Registry
  groups : List SentenceGroup
  facts : List Sentence
  notes : Notes
deriving Inhabited

namespace Theory

def empty (name : Text) : Theory := ⟨name, .empty, [], [], []⟩

/-- The key under which skipped declarations and facts are noted. -/
def skippedKey : Text := "skipped_declarations"

def annotate (t : Theory) (key value : Text) : Theory :=
  { t with notes := t.notes.add key [value] }

/-- The reasons noted for skipped declarations and facts. -/
def skipped (t : Theory) : List Text := t.notes.values skippedKey

/-- Notes why something was skipped; the reason ends at its first zero byte. -/
def skip (t : Theory) (e : Error) : Theory := t.annotate skippedKey e.line.beforeNul

/-- Takes over a registry that a declaration gave, or notes why it gave none. The truth value
tells which. -/
def declare (t : Theory) : Except Error Registry → Bool × Theory
  | .ok registry => (true, { t with registry })
  | .error e => (false, t.skip e)

def declareType (t : Theory) (name target : Text) : Bool × Theory :=
  t.declare (t.registry.declareType name target)

def declareUnion (t : Theory) (name : Text) (alternatives : List Text) : Bool × Theory :=
  t.declare (t.registry.declareUnion name alternatives)

def declarePredicate (t : Theory) (p : Predicate) : Bool × Theory :=
  t.declare (t.registry.declarePredicate p)

def addGroup (t : Theory) (group : SentenceGroup) : Theory :=
  { t with groups := t.groups ++ [group] }

/-- The name of the groups that collect single sentences. -/
def looseGroupName (kind : GroupKind) : Text :=
  if kind = .goal then "Goals" else "Sentences"

/-- Adds a sentence to the last group if that collects single sentences of this kind, and to a new
group of that sort otherwise. -/
def addSentence (t : Theory) (s : Sentence) (kind : GroupKind) : Theory :=
  let fresh : SentenceGroup := ⟨looseGroupName kind, kind, [], [s]⟩
  match t.groups.getLast? with
  | some last =>
    if last.name = looseGroupName kind && last.kind = kind then
      { t with groups := t.groups.dropLast ++ [{ last with sentences := last.sentences ++ [s] }] }
    else t.addGroup fresh
  | none => t.addGroup fresh

/-- A fact is a term without variables, and every term in it has the declared arity. -/
def checkFact (r : Registry) : Sentence → Except Error Unit
  | .term p args =>
    if (Sentence.term p args).isGround then r.checkArity (.term p args)
    else .error (.factWithVariables (.term p args))
  | other => .error (.factNotTerm other)

/-- Adds a fact, or notes why it was skipped. -/
def addFact (t : Theory) (fact : Sentence) : Bool × Theory :=
  match checkFact t.registry fact with
  | .ok () => (true, { t with facts := t.facts ++ [fact] })
  | .error e => (false, t.skip e)

def sentences (t : Theory) : List Sentence := t.groups.flatMap SentenceGroup.sentences

/-- Declares again what another registry declares as a type. -/
def redeclare (t : Theory) (a : TypeAlias) : Bool × Theory :=
  if a.isUnion then t.declareUnion a.name a.targets
  else t.declareType a.name (a.targets.headD [])

/-- The content of another theory after that of this one. -/
def merge (t other : Theory) : Theory :=
  let t := other.registry.types.foldl (fun t a => (t.redeclare a).2) t
  let t := other.registry.predicates.foldl (fun t p => (t.declarePredicate p).2) t
  let t := { t with groups := t.groups ++ other.groups }
  let t := other.facts.foldl (fun t fact => (t.addFact fact).2) t
  { t with notes := other.notes.foldl (fun notes (key, values) => notes.add key values) t.notes }

/-- Equality of content, where numbers are compared by their value. -/
def same (t u : Theory) : Bool :=
  t.name == u.name && t.registry == u.registry && SentenceGroup.sameAll t.groups u.groups &&
    Sentence.sameAll t.facts u.facts && t.notes == u.notes

end Theory

end Clausal
