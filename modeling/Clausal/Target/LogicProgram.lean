import Clausal.Clause.Normalize
import Clausal.Target.ProbLog

/-!
# Logic programs

The layout that Prolog and ProbLog share: comments on the declared predicates, the clauses of each
group under its name, the facts and the queries. A sentence that has no clauses in the language is
replaced by a comment and reported.
-/

namespace Clausal

/-- The two languages of logic programs. -/
inductive LogicProgram where
  | prolog
  | problog
deriving DecidableEq

namespace LogicProgram

def dialect : LogicProgram → Dialect
  | .prolog => ⟨false, true, true, false⟩
  | .problog => ⟨false, false, false, true⟩

/-- A part of a program: its text, the predicates that its bodies refer to, and reports. -/
structure Part where
  text : Text
  used : List Text
  diagnostics : List Diagnostic

namespace Part

def empty : Part := ⟨[], [], []⟩

def append (x y : Part) : Part :=
  ⟨x.text ++ y.text, x.used ++ y.used, x.diagnostics ++ y.diagnostics⟩

end Part

mutual

def predicatesOf : Sentence → List Text
  | .term p _ => if isBuiltin p then [] else [p]
  | .var .. => []
  | .const .. => []
  | .neg s => predicatesOf s
  | .conj ss => predicatesOfAll ss
  | .disj ss => predicatesOfAll ss
  | .implies a b => predicatesOf a ++ predicatesOf b
  | .iff a b => predicatesOf a ++ predicatesOf b
  | .forAll _ s => predicatesOf s
  | .forSome _ s => predicatesOf s
  | .weighted _ s => predicatesOf s
  | .evidence _ s => predicatesOf s
  | .missing => []

def predicatesOfAll : List Sentence → List Text
  | [] => []
  | s :: ss => predicatesOf s ++ predicatesOfAll ss

end

/-- The comment in the place of a sentence that cannot be expressed. -/
def omission (s : Sentence) : Text := "%% UNTRANSLATABLE: " ++ s.text ++ "\n"

/-- A clause on a line, with its weight in ProbLog. -/
def clauseLine (program : LogicProgram) (c : Clause) : Except TargetFault Text := do
  let weight := if program = .problog then ProbLog.weightMark c.weight else []
  return weight ++ (← Prolog.clause c) ++ "\n"

def rules (program : LogicProgram) (r : Registry) (group : Text) (index : Nat) (s : Sentence) :
    Except TargetFault Part := do
  let n ← TargetFault.ofBuild (program.dialect.tryNormalize (some r) s)
  let n := n.locate group index
  let lines ← n.clauses.mapM program.clauseLine
  let note := if n.diagnostics.isEmpty then [] else omission s
  return ⟨lines.flatten ++ note, predicatesOfAll (n.clauses.flatMap Clause.body), n.diagnostics⟩

/-- An observation, which only ProbLog has. -/
def observation (r : Registry) (group : Text) (index : Nat) (s body : Sentence) (holds : Bool) :
    Except TargetFault Part :=
  match ProbLog.evidence (some r) body holds with
  | .ok text => .ok ⟨text ++ "\n", [], []⟩
  | .error (.refused e) => .ok ⟨omission s, [], [.ofError e group index s.text]⟩
  | .error fault => .error fault

def sentencePart (program : LogicProgram) (r : Registry) (group : Text) (index : Nat)
    (s : Sentence) : Except TargetFault Part :=
  match program, s.stripForAll.2 with
  | .problog, .evidence holds body => observation r group index s body holds
  | _, _ => program.rules r group index s

/-- The parts for the sentences of a group, numbered from `index` on. -/
def sentenceParts (program : LogicProgram) (r : Registry) (group : Text) (index : Nat) :
    List Sentence → Except TargetFault Part
  | [] => .ok .empty
  | s :: ss => do
    let first ← program.sentencePart r group index s
    return first.append (← sentenceParts program r group (index + 1) ss)

/-- The lines of a text as comments, without blank ones. -/
def commentLines (t : Text) : Text :=
  let comment (line : Text) : Text := if line.isEmpty then [] else "% " ++ line ++ "\n"
  ((Text.split (ascii '\n') t).map Text.trim).flatMap comment

def groupPart (program : LogicProgram) (r : Registry) (g : SentenceGroup) :
    Except TargetFault Part := do
  let body ← program.sentenceParts r g.name 0 g.sentences
  let heading : Text := "%% " ++ g.name ++ "\n" ++ commentLines g.docstring ++ "\n"
  return { body with text := heading ++ body.text }

/-- The parts for groups, each followed by an empty line. -/
def groupParts (program : LogicProgram) (r : Registry) : List SentenceGroup →
    Except TargetFault Part
  | [] => .ok .empty
  | g :: gs => do
    let first ← program.groupPart r g
    let rest ← groupParts program r gs
    return { first with text := first.text ++ "\n" }.append rest

/-- A comment with the signature and the description of a predicate. -/
def signatureLine (p : Predicate) : Text :=
  let argument (a : TypedName) : Text := a.name ++ ": " ++ a.type
  let description : Text := if p.description.isEmpty then [] else "  " ++ p.description
  "% " ++ p.name ++ "(" ++ Text.join ", " (p.arguments.map argument) ++ ")" ++ description ++ "\n"

/-- The comments on the declared predicates. -/
def signatures (r : Registry) : Text :=
  if r.predicates.isEmpty then []
  else "%% Predicate Definitions\n" ++ r.predicates.flatMap signatureLine ++ "\n"

def factLines (facts : List Sentence) : Except TargetFault Text :=
  if facts.isEmpty then .ok []
  else do
    let line (literal : Text) : Text := literal ++ ".\n"
    return "%% Facts\n\n" ++ (← Prolog.literals facts).flatMap line

/-- The queries: in Prolog for the predicates that no body refers to, in ProbLog for all. -/
def queries (program : LogicProgram) (r : Registry) (used : List Text) : Text :=
  let line (p : Predicate) : Text :=
    match program with
    | .prolog => if used.contains p.name then [] else "?- " ++ Prolog.goal p ++ ".\n"
    | .problog => "query(" ++ Prolog.goal p ++ ").\n"
  let lines := r.predicates.flatMap line
  if lines.isEmpty then [] else "\n%% Queries\n\n" ++ lines

def compile (program : LogicProgram) (choices : Choices) (t : Theory) :
    Except TargetFault Compiled := do
  let comments := if choices.comments then signatures t.registry else []
  let groups ← program.groupParts t.registry t.groups
  let facts ← factLines t.facts
  let queries := if choices.queries then program.queries t.registry groups.used else []
  return ⟨comments ++ groups.text ++ facts ++ queries, groups.diagnostics⟩

def compileGroup (program : LogicProgram) (r : Registry) (g : SentenceGroup) :
    Except TargetFault Compiled := do
  let part ← program.groupPart r g
  return ⟨part.text, part.diagnostics⟩

end LogicProgram

end Clausal
