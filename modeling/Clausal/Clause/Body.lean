import Clausal.Error
import Clausal.Clause

/-!
# Bodies of clauses

A formula in the body of a clause becomes one or more lists of literals, one list for each
alternative body. What is possible depends on the dialect of the target language: a disjunction is
split into alternatives or kept as one literal, and the negation of anything but a term needs
permission. The variables of existential quantifiers on the way are recorded.

Each function takes a polarity beside the formula: with `false` it deals with the negation of the
formula, where two negations cancel.

An implication is rewritten as a disjunction and a biconditional as two, which cannot be built from
a missing operand.
-/

namespace Clausal

/-- What a target language allows in its clauses. -/
structure Dialect where
  /-- Disjunctions in a body are split into several clauses. -/
  splitDisjunctions : Bool
  /-- Clauses without a head are allowed. -/
  allowConstraints : Bool
  /-- Formulas other than terms may be negated. -/
  allowCompoundNegation : Bool
  /-- Clauses may carry a weight. -/
  allowWeights : Bool
deriving DecidableEq, Inhabited

/-- A formula kept as one literal, with the variables recorded on the way. -/
structure Inlined where
  vars : List TypedName
  formula : Sentence

namespace Dialect

def checkNegation (d : Dialect) (s : Sentence) : Except Error Unit :=
  if s.isTerm || d.allowCompoundNegation then .ok () else .error (.compoundNegation (.neg s))

/-- Whether the disjunction for an implication can be built. -/
def checkEither (a b : Sentence) : Except Error Unit :=
  if a.negate.isMissing || b.isMissing then .error (.missingOperand .disj) else .ok ()

/-- A formula as it is, or its negation if that is allowed. -/
def withPolarity (d : Dialect) (s : Sentence) (positive : Bool) (inlined : Except Error Inlined) :
    Except Error Inlined :=
  if positive then inlined
  else do
    d.checkNegation s
    let i ← inlined
    return ⟨i.vars, .neg i.formula⟩

mutual

/-- A formula kept as one literal of terms, negations, conjunctions and disjunctions. -/
def inlined (d : Dialect) : Sentence → Bool → Except Error Inlined
  | .neg s, positive => inlined d s (!positive)
  | .term p args, positive => d.withPolarity (.term p args) positive (.ok ⟨[], .term p args⟩)
  | .conj ss, positive =>
    d.withPolarity (.conj ss) positive do
      let (vars, parts) ← inlinedAll d ss
      return ⟨vars, .conj parts⟩
  | .disj ss, positive =>
    d.withPolarity (.disj ss) positive do
      let (vars, parts) ← inlinedAll d ss
      return ⟨vars, .disj parts⟩
  | .implies a b, positive =>
    d.withPolarity (.implies a b) positive do
      checkEither a b
      let x ← inlined d a false
      let y ← inlined d b true
      return ⟨x.vars ++ y.vars, .disj [x.formula, y.formula]⟩
  | .forSome vars s, positive =>
    d.withPolarity (.forSome vars s) positive do
      let i ← inlined d s true
      return ⟨vars ++ i.vars, i.formula⟩
  | s, positive => d.withPolarity s positive (.error (.notInBodyFormula s.kind))

def inlinedAll (d : Dialect) : List Sentence → Except Error (List TypedName × List Sentence)
  | [] => .ok ([], [])
  | s :: ss => do
    let i ← inlined d s true
    let (vars, parts) ← inlinedAll d ss
    return (i.vars ++ vars, i.formula :: parts)

end

/-- The literal for the negation of a formula that is not itself a negation. -/
def negatedLiteral (d : Dialect) : Sentence → Except Error Inlined
  | .term p args => .ok ⟨[], .neg (.term p args)⟩
  | .forSome vars s => do
    let i ← negatedLiteral d s
    return ⟨vars ++ i.vars, i.formula⟩
  | s => do
    d.checkNegation s
    let i ← d.inlined s true
    return ⟨i.vars, .neg i.formula⟩

end Dialect

/-- Alternative bodies, with the variables recorded on the way. -/
structure Bodies where
  vars : List TypedName
  alternatives : List (List Sentence)

namespace Bodies

def unit : Bodies := ⟨[], [[]]⟩

def literal (i : Inlined) : Bodies := ⟨i.vars, [[i.formula]]⟩

def append (x y : Bodies) : Bodies := ⟨x.vars ++ y.vars, x.alternatives ++ y.alternatives⟩

/-- Every alternative of the first joined with every one of the second. -/
def cross (x y : Bodies) : Bodies :=
  ⟨x.vars ++ y.vars, y.alternatives.flatMap fun alt => x.alternatives.map fun body => body ++ alt⟩

end Bodies

namespace Dialect

/-- The alternatives of an implication in a body: its antecedent fails or its consequent holds. -/
def either (d : Dialect) (s : Sentence) (fails holds : Except Error Bodies) :
    Except Error Bodies :=
  if d.splitDisjunctions then do
    let x ← fails
    let y ← holds
    return x.append y
  else do return .literal (← d.inlined s true)

mutual

/-- The alternative bodies of a formula. -/
def bodies (d : Dialect) : Sentence → Bool → Except Error Bodies
  | .neg s, positive => bodies d s (!positive)
  | s, false => do return .literal (← d.negatedLiteral s)
  | .term p args, true => .ok (.literal ⟨[], .term p args⟩)
  | .conj ss, true => conjunction d .unit ss
  | .disj ss, true =>
    if d.splitDisjunctions then disjunction d ss
    else do return .literal (← d.inlined (.disj ss) true)
  | .implies a b, true => do
    checkEither a b
    d.either (.implies a b) (bodies d a false) (bodies d b true)
  | .iff a b, true => do
    checkEither a b
    checkEither b a
    let x ← d.either (.implies a b) (bodies d a false) (bodies d b true)
    let y ← d.either (.implies b a) (bodies d b false) (bodies d a true)
    return x.cross y
  | .forSome vars s, true => do
    let b ← bodies d s true
    return { b with vars := vars ++ b.vars }
  | .forAll vars s, true => .error (.universalInBody (.forAll vars s))
  | .weighted .., true => .error (.wrapperInBody .weighted)
  | .evidence .., true => .error (.wrapperInBody .evidence)
  | .var .., true => .error (.notLiteral .var)
  | .const .., true => .error (.notLiteral .const)
  | .missing, true => .error (.notLiteral .missing)

/-- The alternatives of a conjunction, after those of the conjuncts so far. -/
def conjunction (d : Dialect) (sofar : Bodies) : List Sentence → Except Error Bodies
  | [] => .ok sofar
  | s :: ss => do
    let b ← bodies d s true
    conjunction d (sofar.cross b) ss

def disjunction (d : Dialect) : List Sentence → Except Error Bodies
  | [] => .ok ⟨[], []⟩
  | s :: ss => do
    let b ← bodies d s true
    return b.append (← disjunction d ss)

end

end Dialect

end Clausal
