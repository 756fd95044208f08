import Clausal.Registry
import Clausal.Theory
import Clausal.Clause.Flatten

/-!
# Normalization

A sentence is normalized to the clauses that flattening gives, without those that fail a check: the
terms of a clause have the declared arity, and every variable of its head is bound by its body. A
sentence that cannot be flattened gives no clause and one report, and each failing clause one. With
missing operands it may be that there is not even a report, because the attempt itself fails.
-/

namespace Clausal

/-- Clauses with reports on what was left out. -/
structure Normalized where
  clauses : List Clause
  diagnostics : List Diagnostic
deriving Inhabited

namespace Normalized

def empty : Normalized := ⟨[], []⟩

def append (x y : Normalized) : Normalized :=
  ⟨x.clauses ++ y.clauses, x.diagnostics ++ y.diagnostics⟩

def keep (c : Clause) (x : Normalized) : Normalized := { x with clauses := c :: x.clauses }

def report (d : Diagnostic) (x : Normalized) : Normalized :=
  { x with diagnostics := d :: x.diagnostics }

/-- Marks clauses and reports with the place of their sentence. -/
def locate (group : Text) (index : Nat) (x : Normalized) : Normalized :=
  ⟨x.clauses.map fun c => { c with source := index },
    x.diagnostics.map fun d => { d with group, index }⟩

end Normalized

namespace Clause

/-- Checks the arities of all terms and that the body binds the variables of the head. -/
def check (r : Option Registry) (c : Clause) : Except Error Unit := do
  (c.head.toList ++ c.body).forM (Registry.checkArity? r)
  match c.head with
  | none => .ok ()
  | some head =>
    match head.freeVars.find? fun name => !c.boundVars.contains name with
    | some name => .error (.unsafeHead name head)
    | none => .ok ()

end Clause

namespace Dialect

/-- Sorts clauses into those that pass the checks and reports on the others. -/
def checkClauses (r : Option Registry) (sentence : Text) : List Clause → Normalized
  | [] => .empty
  | c :: cs =>
    match c.check r with
    | .ok () => (checkClauses r sentence cs).keep c
    | .error e => (checkClauses r sentence cs).report (.ofError e [] 0 sentence)

/-- The clauses of a sentence. -/
def normalize (d : Dialect) (r : Option Registry) (s : Sentence) : Normalized :=
  match d.flatten s .outermost with
  | .error e => ⟨[], [.ofError e [] 0 s.text]⟩
  | .ok rules => checkClauses r s.text (rules.clauses.map fun c => { c with vars := rules.vars })

/-- The clauses of the sentences of a group, numbered from `index` on. -/
def normalizeFrom (d : Dialect) (r : Option Registry) (group : Text) (index : Nat) :
    List Sentence → Normalized
  | [] => .empty
  | s :: ss =>
    ((d.normalize r s).locate group index).append (normalizeFrom d r group (index + 1) ss)

def normalizeGroup (d : Dialect) (r : Option Registry) (g : SentenceGroup) : Normalized :=
  d.normalizeFrom r g.name 0 g.sentences

/-- What keeps a sentence from being normalized at all: a formula on the way cannot be built. -/
def fault? (d : Dialect) (s : Sentence) : Option BuildFault :=
  match d.flatten s .outermost with
  | .error (.missingOperand kind) => some (.missingOperand kind)
  | _ => none

/-- The clauses of a sentence, unless it cannot be normalized at all. -/
def tryNormalize (d : Dialect) (r : Option Registry) (s : Sentence) :
    Except BuildFault Normalized :=
  match d.fault? s with
  | some fault => .error fault
  | none => .ok (d.normalize r s)

/-- The clauses of a group of sentences, unless one cannot be normalized at all. -/
def tryNormalizeGroup (d : Dialect) (r : Option Registry) (g : SentenceGroup) :
    Except BuildFault Normalized :=
  match g.sentences.findSome? d.fault? with
  | some fault => .error fault
  | none => .ok (d.normalizeGroup r g)

end Dialect

end Clausal
