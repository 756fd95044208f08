import Clausal.Clause.Body

/-!
# Flattening of sentences

A sentence in head position becomes clauses. Conditions met on the way down are collected as the
body; conjunctions give the clauses of each conjunct, a negation gives a constraint, and of a
disjunction the last disjunct that is not negated becomes the head.

A ladder is a conjunction of the form `(c → h) ∧ (¬c → rest)` where `rest` may be a ladder again.
Its branches become clauses whose bodies exclude each other, marked with the number of the ladder
and of the branch. A ladder inside another is flattened alike but keeps the mark of the outer one.

A biconditional is taken as two implications and a disjunction as an implication from a conjunction,
which cannot be built from a missing operand.
-/

namespace Clausal

/-- Clauses of a sentence, with the variables recorded and the number of ladders met. -/
structure Rules where
  vars : List TypedName
  ladders : Nat
  clauses : List Clause

namespace Rules

def none : Rules := ⟨[], 0, []⟩

def append (x y : Rules) : Rules :=
  ⟨x.vars ++ y.vars, x.ladders + y.ladders, x.clauses ++ y.clauses⟩

/-- The rules with further variables recorded before. -/
def recording (vars : List TypedName) (x : Rules) : Rules := { x with vars := vars ++ x.vars }

/-- The rules of each member of a list, where ladders are numbered from `next` on. -/
def collect {α : Type} (next : Nat) (rules : Nat → α → Except Error Rules) :
    List α → Except Error Rules
  | [] => .ok none
  | x :: xs => do
    let first ← rules next x
    return first.append (← collect (next + first.ladders) rules xs)

end Rules

/-- What surrounds a sentence in head position: the weight and the branch of a ladder that hold
for its clauses, the conditions, and the number of the next ladder. -/
structure Setting where
  weight : Option Binary64
  rung : Option Rung
  conditions : List Sentence
  next : Nat

namespace Setting

/-- Where a whole sentence stands. -/
def outermost : Setting := ⟨.none, .none, [], 0⟩

/-- The clause with a head under the conditions so far and further literals. -/
def clause (c : Setting) (head : Option Sentence) (literals : List Sentence) : Clause :=
  ⟨head, c.conditions ++ literals, [], c.weight, c.rung, 0⟩

/-- The setting under further conditions, where ladders are numbered from `next` on. -/
def under (c : Setting) (next : Nat) (literals : List Sentence) : Setting :=
  { c with conditions := c.conditions ++ literals, next := next }

/-- The rules of a sentence under each of several alternative conditions. -/
def forEach (c : Setting) (conditions : Bodies) (rules : Setting → Except Error Rules) :
    Except Error Rules := do
  let found ← Rules.collect c.next (fun next literals => rules (c.under next literals))
    conditions.alternatives
  return found.recording conditions.vars

/-- The setting of a branch: only the outermost ladder marks its clauses. -/
def onRung (c : Setting) (ladder branch : Nat) : Setting :=
  match c.rung with
  | .none => { c with rung := some ⟨ladder, branch⟩ }
  | some _ => c

end Setting

namespace Sentence

/-- Whether one of two sentences is the negation of the other. -/
def isNegationOf (a b : Sentence) : Bool :=
  (match a with
    | .neg inner => same inner b
    | _ => false) ||
  (match b with
    | .neg inner => same inner a
    | _ => false)

def isLadder : List Sentence → Bool
  | [.implies guard _, .implies otherwise _] => isNegationOf otherwise guard
  | _ => false

/-- The operands of the negations among some disjuncts. -/
def negatives (ss : List Sentence) : List Sentence :=
  ss.filterMap fun
    | .neg s => some s
    | _ => Option.none

/-- The disjuncts that are not negations. -/
def positives (ss : List Sentence) : List Sentence := ss.filter fun s => !s.isNeg

end Sentence

namespace Dialect

/-- Constraints that a body does not hold under the conditions so far. -/
def constraint (d : Dialect) (c : Setting) (kind : ErrorKind) (body : Sentence) :
    Except Error Rules :=
  if d.allowConstraints then do
    let b ← d.bodies body true
    let full := b.alternatives.map (c.clause .none)
    if full.any fun clause => clause.body.isEmpty then .error .falsehood
    else return ⟨b.vars, 0, full⟩
  else .error (.noConstraints kind body)

/-- The condition of a branch of a ladder: its own guard, and none of the earlier ones. -/
def branchConditions (d : Dialect) (guard : Sentence) (earlier : List Sentence) :
    Except Error Bodies :=
  d.conjunction .unit (guard :: earlier.map Sentence.negate)

mutual

/-- The clauses of a sentence in head position. -/
def flatten (d : Dialect) : Sentence → Setting → Except Error Rules
  | .term p args, c => .ok ⟨[], 0, [c.clause (some (.term p args)) []]⟩
  | .forAll vars s, c => do return (← flatten d s c).recording vars
  | .forSome vars s, c => do return (← flatten d s c).recording vars
  | .implies a b, c => do c.forEach (← d.bodies a true) (flatten d b)
  | .iff a b, c => do
    if a.isMissing || b.isMissing then .error (.missingOperand .implies)
    let first ← c.forEach (← d.bodies a true) (flatten d b)
    let c := c.under (c.next + first.ladders) []
    return first.append (← c.forEach (← d.bodies b true) (flatten d a))
  | .conj ss, c =>
    if Sentence.isLadder ss then do
      let rules ← flattenLadder d ss c.next 0 [] (c.under (c.next + 1) [])
      return { rules with ladders := rules.ladders + 1 }
    else flattenAll d ss c
  | .neg (.neg s), c => flatten d s c
  | .neg s, c => d.constraint c .unsupportedNegation s
  | .disj ss, c =>
    if (Sentence.negatives ss).any Sentence.isMissing then .error (.missingOperand .conj)
    else if (Sentence.positives ss).isEmpty then
      d.constraint c .unsupportedConstraint (.conj (Sentence.negatives ss))
    else do
      let others := (Sentence.positives ss).dropLast.map Sentence.negate
      c.forEach (← d.conjunction .unit (Sentence.negatives ss ++ others)) (flattenLast d ss)
  | .weighted w s, c =>
    if !d.allowWeights then .error .weightUnsupported
    else if c.weight.isSome then .error .nestedWeights
    else flatten d s { c with weight := some w }
  | .evidence .., _ => .error .evidenceUnsupported
  | .var .., _ => .error (.notSentence .var)
  | .const .., _ => .error (.notSentence .const)
  | .missing, _ => .error (.notSentence .missing)

def flattenAll (d : Dialect) : List Sentence → Setting → Except Error Rules
  | [], _ => .ok .none
  | s :: ss, c => do
    let first ← flatten d s c
    return first.append (← flattenAll d ss (c.under (c.next + first.ladders) []))

/-- The clauses of the last member of a list that is not a negation. -/
def flattenLast (d : Dialect) : List Sentence → Setting → Except Error Rules
  | [], _ => .ok .none
  | s :: ss, c => if (Sentence.positives ss).isEmpty then flatten d s c else flattenLast d ss c

/-- The clauses of the branches of a ladder from number `branch` on, after the guards `earlier`. -/
def flattenLadder (d : Dialect) : List Sentence → Nat → Nat → List Sentence → Setting →
    Except Error Rules
  | [.implies guard consequent, .implies _ (.conj ss)], ladder, branch, earlier, c => do
    let conditions ← d.branchConditions guard earlier
    let first ← (c.onRung ladder branch).forEach conditions (flatten d consequent)
    let c := c.under (c.next + first.ladders) []
    if Sentence.isLadder ss then
      return first.append (← flattenLadder d ss ladder (branch + 1) (earlier ++ [guard]) c)
    else
      let conditions ← d.branchConditions guard.negate earlier
      return first.append
        (← (c.onRung ladder (branch + 1)).forEach conditions (flattenAll d ss))
  | [.implies guard consequent, .implies _ last], ladder, branch, earlier, c => do
    let conditions ← d.branchConditions guard earlier
    let first ← (c.onRung ladder branch).forEach conditions (flatten d consequent)
    let c := c.under (c.next + first.ladders) []
    let conditions ← d.branchConditions guard.negate earlier
    return first.append (← (c.onRung ladder (branch + 1)).forEach conditions (flatten d last))
  | _, _, _, _, _ => .ok .none

end

end Dialect

end Clausal
