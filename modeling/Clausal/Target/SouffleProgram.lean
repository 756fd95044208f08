import Clausal.Target
import Clausal.Target.Souffle
import Clausal.Clause.Normalize
import Clausal.Clause.Stratification

/-!
# Souffle programs

A program declares types and relations and lists the rules of each group, the facts and directives
to print the derived relations. Rules that would make it unstratified are left out and reported.
-/

namespace Clausal

namespace Souffle

def dialect : Dialect := ⟨true, false, false, false⟩

/-- A clause of the program with its text and the place and text of its sentence. -/
structure Entry where
  clause : Clause
  text : Text
  group : Text
  index : Nat
  source : Text

/-- The entries of a group under its name. -/
structure Section where
  name : Text
  entries : List Entry

/-- Writes clauses, and reports those that the language refuses. -/
def writeClauses (g : SentenceGroup) :
    List Clause → Except TargetFault (List Entry × List Diagnostic)
  | [] => .ok ([], [])
  | c :: cs =>
    let source := (g.sentences[c.source]?.getD .missing).text
    match clause c with
    | .ok text => do
      let (entries, diagnostics) ← writeClauses g cs
      return (⟨c, text, g.name, c.source, source⟩ :: entries, diagnostics)
    | .error (.refused e) => do
      let (entries, diagnostics) ← writeClauses g cs
      return (entries, .ofError e g.name c.source source :: diagnostics)
    | .error fault => .error fault

def groupSection (r : Registry) (g : SentenceGroup) :
    Except TargetFault (Section × List Diagnostic) := do
  let n ← TargetFault.ofBuild (dialect.tryNormalizeGroup (some r) g)
  let (entries, diagnostics) ← writeClauses g n.clauses
  return (⟨g.name, entries⟩, n.diagnostics ++ diagnostics)

def factsName : Text := "Facts"

def factEntry (fact : Sentence) (index : Nat) : Except TargetFault Entry := do
  let c : Clause := ⟨some fact, [], [], none, none, index⟩
  return ⟨c, ← clause c, factsName, index, fact.text⟩

def factSection (facts : List Sentence) : Except TargetFault Section := do
  return ⟨factsName, ← facts.zipIdx.mapM fun (fact, index) => factEntry fact index⟩

/-- The report on a rule that is left out. -/
def unstratifiedReport (e : Entry) : Diagnostic :=
  .ofError (.negativeCycle e.text) e.group e.index e.source

/-- The components of the predicates of all entries. -/
def sectionComponents (sections : List Section) : Components Text :=
  dependencyComponents ((sections.flatMap Section.entries).map Entry.clause)

/-- Leaves out the unstratified rules and reports them. -/
def dropUnstratified (sections : List Section) : List Section × List Diagnostic :=
  let components := sectionComponents sections
  let isBad (e : Entry) : Bool := e.clause.isUnstratified components
  (sections.map fun s => { s with entries := s.entries.filter fun e => !isBad e },
    ((sections.flatMap Section.entries).filter isBad).map unstratifiedReport)

/-- A section, unless it is empty. -/
def sectionText (s : Section) : Text :=
  let line (e : Entry) : Text := e.text ++ "\n"
  if s.entries.isEmpty then [] else "\n// " ++ s.name ++ "\n" ++ s.entries.flatMap line

/-- How a type is written: primitives by their scalar kind, and declared types by their name if
they can be resolved. -/
def typeName (r : Registry) (type : Text) : Except Error Text :=
  if type.isEmpty then .ok "symbol"
  else if isPrimitive type then do
    let kind ← r.scalarKind type
    return if kind = .number then "number" else "symbol"
  else do
    let _ ← r.resolve type
    return type

def typeLine (r : Registry) (a : TypeAlias) : Except Error Text := do
  let targets ← a.targets.mapM (typeName r)
  return ".type " ++ a.name ++ " = " ++ Text.join " | " targets ++ "\n"

/-- The declaration of a relation, under its description. -/
def relationLine (r : Registry) (choices : Choices) (p : Predicate) : Except Error Text := do
  let argument (a : TypedName) : Except Error Text := do
    return a.name.toLower ++ ": " ++ (← typeName r a.type)
  let arguments ← p.arguments.mapM argument
  let comment : Text :=
    if choices.comments && !p.description.isEmpty then "// " ++ p.description ++ "\n" else []
  return comment ++ ".decl " ++ p.name ++ "(" ++ Text.join ", " arguments ++ ")\n"

/-- The lines that can be written, and reports on the others. -/
def declarations {α : Type} (line : α → Except Error Text) (explain : α → Error → Error) :
    List α → Text × List Diagnostic
  | [] => ([], [])
  | x :: xs =>
    let (text, diagnostics) := declarations line explain xs
    match line x with
    | .ok first => (first ++ text, diagnostics)
    | .error e => (text, .ofError (explain x e) [] 0 [] :: diagnostics)

/-- The predicates of the heads of rules, each once. -/
def derived (sections : List Section) : List Text :=
  let rules := ((sections.flatMap Section.entries).map Entry.clause).filter fun c => !c.body.isEmpty
  (rules.filterMap Clause.headRelation?).eraseDups

/-- Directives for the derived relations, the declared ones first. -/
def outputs (r : Registry) (sections : List Section) : Text :=
  let heads := derived sections
  let declared := (r.predicates.map Predicate.name).filter heads.contains
  let ordered := declared ++ heads.filter fun name => !declared.contains name
  let line (name : Text) : Text := ".output " ++ name ++ "\n"
  let lines := ordered.flatMap line
  if lines.isEmpty then [] else ascii '\n' :: lines

/-- The declarations of types and relations. -/
def header (choices : Choices) (r : Registry) : Text × List Diagnostic :=
  let (types, typeReports) := declarations (typeLine r) (fun a => .inTypeDeclaration a.name) r.types
  let (relations, relationReports) :=
    declarations (relationLine r choices) (fun p => .inPredicateDeclaration p.name) r.predicates
  (types ++ relations, typeReports ++ relationReports)

/-- The sections of a theory, the facts last, with reports on what cannot be written. -/
def collect (t : Theory) : Except TargetFault (List Section × List Diagnostic) := do
  let groups ← t.groups.mapM (groupSection t.registry)
  let facts ← factSection t.facts
  return (groups.map Prod.fst ++ [facts], groups.flatMap Prod.snd)

/-- The text of a program with some sections. -/
def programText (choices : Choices) (r : Registry) (sections : List Section) : Text :=
  (header choices r).1 ++ sections.flatMap sectionText ++
    if choices.outputs then outputs r sections else []

def compile (choices : Choices) (t : Theory) : Except TargetFault Compiled := do
  let (collected, reports) ← collect t
  let (sections, dropped) := dropUnstratified collected
  return ⟨programText choices t.registry sections,
    (header choices t.registry).2 ++ reports ++ dropped⟩

def compileGroup (r : Registry) (g : SentenceGroup) : Except TargetFault Compiled := do
  let (group, diagnostics) ← groupSection r g
  let (sections, dropped) := dropUnstratified [group]
  return ⟨sections.flatMap sectionText, diagnostics ++ dropped⟩

end Souffle

end Clausal
