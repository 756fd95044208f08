import Clausal.Target
import Clausal.Target.Tptp
import Clausal.Target.Prover9

/-!
# First-order problems

Provers take whole formulas, so sentences are not normalized. The sentences of goal groups are the
goals; all others and the facts are the assumptions. Sentences are closed universally. A sentence
without a first-order reading is reported.
-/

namespace Clausal

/-- The two notations for first-order problems. -/
inductive Prover where
  | tptp
  | prover9
deriving DecidableEq

namespace Prover

def formula : Prover → Sentence → Except Error Text
  | .tptp => Tptp.formula
  | .prover9 => Prover9.formula

/-- A sentence as a formula, after a check of its arities. -/
def checkedFormula (prover : Prover) (r : Registry) (s closed : Sentence) : Except Error Text := do
  r.checkArity s
  prover.formula closed

/-- The formulas of sentences numbered from `index` on, and reports on the others. -/
def formulas (prover : Prover) (r : Registry) (close : Sentence → Sentence) (group : Text)
    (index : Nat) : List Sentence → List Text × List Diagnostic
  | [] => ([], [])
  | s :: ss =>
    let (texts, diagnostics) := formulas prover r close group (index + 1) ss
    match prover.checkedFormula r s (close s) with
    | .ok text => (text :: texts, diagnostics)
    | .error e => (texts, .ofError e group index s.text :: diagnostics)

def groupFormulas (prover : Prover) (r : Registry) (g : SentenceGroup) :
    List Text × List Diagnostic :=
  prover.formulas r Sentence.closure g.name 0 g.sentences

def problem (prover : Prover) (name : Text) (assumptions goals : List Text) : Text :=
  let name : Text := if name.isEmpty then "unnamed" else name
  match prover with
  | .tptp => Tptp.problem name assumptions goals
  | .prover9 => Prover9.problem name assumptions goals

def compileParts (prover : Prover) (t : Theory) (groups : List SentenceGroup)
    (facts : List Sentence) : Compiled :=
  let rendered := groups.map fun g => (g.kind, prover.groupFormulas t.registry g)
  let assumptions := (rendered.filter fun g => g.1 ≠ .goal).flatMap fun g => g.2.1
  let goals := (rendered.filter fun g => g.1 = .goal).flatMap fun g => g.2.1
  let (factTexts, factReports) := prover.formulas t.registry id "Facts" 0 facts
  ⟨prover.problem t.name (assumptions ++ factTexts) goals,
    (rendered.flatMap fun g => g.2.2) ++ factReports⟩

def compile (prover : Prover) (t : Theory) : Compiled := prover.compileParts t t.groups t.facts

def compileGroup (prover : Prover) (t : Theory) (g : SentenceGroup) : Compiled :=
  prover.compileParts t [g] []

end Prover

end Clausal
