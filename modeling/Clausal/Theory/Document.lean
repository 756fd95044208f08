import Clausal.Sentence.Document
import Clausal.Theory

/-!
# Theories as s-expressions

A document holds one theory, in sections for its name, types, predicates, sentences, facts and
notes. A section may be missing, and of several sections with one tag the first counts. A document
that is not of this form is refused, while bad declarations and facts in it are only skipped.
-/

namespace Clausal

/-- A text in double quotes, or null for the empty text. -/
def optionalDocument (t : Text) : Text := if t.isEmpty then "#null" else Text.doubleQuoted t

/-- Texts in double quotes, each after a space. -/
def quotedList (ts : List Text) : Text := ts.flatMap fun t => ascii ' ' :: Text.doubleQuoted t

def TypeAlias.document (a : TypeAlias) : Text :=
  "\n    (" ++ (if a.isUnion then Text.ofString "Union " else "Type ") ++
    Text.doubleQuoted a.name ++ quotedList a.targets ++ ")"

def TypedName.pairDocument (a : TypedName) : Text :=
  " (" ++ Text.doubleQuoted a.name ++ " " ++ Text.doubleQuoted a.type ++ ")"

def Predicate.document (p : Predicate) : Text :=
  "\n    (PredicateDefinition " ++ Text.doubleQuoted p.name ++ " (arguments" ++
    p.arguments.flatMap TypedName.pairDocument ++ ")\n      (description " ++
    optionalDocument p.description ++ ") (parents" ++ quotedList p.parents ++ "))"

def Sentence.lineDocument (indent : Text) (s : Sentence) : Text :=
  ascii '\n' :: indent ++ "    " ++ s.document

def SentenceGroup.document (indent : Text) (g : SentenceGroup) : Text :=
  indent ++ "(SentenceGroup " ++ Text.doubleQuoted g.name ++ " (kind " ++ g.kind.name ++
    ") (docstring " ++ optionalDocument g.docstring ++ ")\n" ++ indent ++ "  (sentences" ++
    g.sentences.flatMap (Sentence.lineDocument indent) ++ "))"

def Notes.entryDocument (entry : Text × List Text) : Text :=
  "\n    (" ++ Text.doubleQuoted entry.1 ++ quotedList entry.2 ++ ")"

/-- A theory as an s-expression. -/
def Theory.document (t : Theory) : Text :=
  "(Theory\n  (name " ++ optionalDocument t.name ++ ")\n  (type_definitions" ++
    t.registry.types.flatMap TypeAlias.document ++ ")\n  (predicate_definitions" ++
    t.registry.predicates.flatMap Predicate.document ++ ")\n  (sentence_groups" ++
    (t.groups.flatMap fun g => ascii '\n' :: g.document "    ") ++ ")\n  (ground_terms" ++
    t.facts.flatMap (Sentence.lineDocument []) ++ ")\n  (annotations" ++
    t.notes.flatMap Notes.entryDocument ++ "))"

namespace SExpr

def declareTypeIn (t : Theory) (e : SExpr) : Except Error Theory :=
  match e.tagged? "Type", e.tagged? "Union" with
  | some [name, target], _ => do
    let name ← name.stringOf "type name"
    return (t.declareType name (← target.stringOf "type target")).2
  | some _, _ => wrongCount e.pos "Type" 2
  | none, some (name :: first :: rest) => do
    let alternatives ← (first :: rest).mapM (stringOf "union alternative")
    return (t.declareUnion (← name.stringOf "type name") alternatives).2
  | none, some _ => e.fault .emptyUnion
  | none, none => e.fault .notTypeForm

def argumentOf : SExpr → Except Error TypedName
  | .list _ [name, type] => do
    let name ← name.stringOf "argument name"
    return ⟨name, ← type.stringOf "argument type"⟩
  | e => e.fault .notArgumentPair

def predicateField (p : Predicate) (e : SExpr) : Except Error Predicate :=
  match e.tagged? "arguments", e.tagged? "description", e.tagged? "parents" with
  | some items, _, _ => do
    return { p with arguments := p.arguments ++ (← items.mapM argumentOf) }
  | _, some [d], _ => do return { p with description := ← d.optionalStringOf "description" }
  | _, some _, _ => wrongCount e.pos "description" 1
  | _, _, some items => do
    return { p with parents := p.parents ++ (← items.mapM (stringOf "parent")) }
  | _, _, _ => e.fault .unknownPredicateField

def predicateOf (e : SExpr) : Except Error Predicate :=
  match e.tagged? "PredicateDefinition" with
  | some (name :: fields) => do
    fields.foldlM predicateField ⟨← name.stringOf "predicate name", [], [], []⟩
  | _ => e.fault .notPredicateForm

def groupKindOf : SExpr → Except Error GroupKind
  | .atom pos (.symbol name) =>
    match GroupKind.ofName? name with
    | some kind => .ok kind
    | none => .error (.malformed pos .notGroupKind)
  | e => e.fault .notGroupKind

def groupField (g : SentenceGroup) (e : SExpr) : Except Error SentenceGroup :=
  match e.tagged? "kind", e.tagged? "docstring", e.tagged? "sentences" with
  | some [kind], _, _ => do return { g with kind := ← kind.groupKindOf }
  | some _, _, _ => wrongCount e.pos "kind" 1
  | _, some [d], _ => do return { g with docstring := ← d.optionalStringOf "docstring" }
  | _, some _, _ => wrongCount e.pos "docstring" 1
  | _, _, some items => do return { g with sentences := g.sentences ++ (← sentencesOf items) }
  | _, _, _ => e.fault .unknownGroupField

def groupOf (e : SExpr) : Except Error SentenceGroup :=
  match e.tagged? "SentenceGroup" with
  | some (name :: fields) => do
    fields.foldlM groupField ⟨← name.stringOf "group name", .plain, [], []⟩
  | _ => e.fault .notGroupForm

def keyedValuesOf : SExpr → Except Error (Text × List Text)
  | .list _ (key :: values) => do
    let key ← key.stringOf "annotation key"
    return (key, ← values.mapM (stringOf "annotation value"))
  | e => e.fault .notKeyedValues

/-- The items of the first section with a tag; a missing section has none. -/
def sectionItems (tag : Text) (items : List SExpr) : List SExpr :=
  (items.findSome? (tagged? tag)).getD []

def nameOf (items : List SExpr) : Except Error Text :=
  match items.find? fun e => (e.tagged? "name").isSome with
  | none => .ok []
  | some e =>
    match e.tagged? "name" with
    | some [name] => name.optionalStringOf "theory name"
    | _ => wrongCount e.pos "name" 1

/-- The theory that the sections of a document describe. -/
def theoryOfSections (items : List SExpr) : Except Error Theory := do
  let t := Theory.empty (← nameOf items)
  let t ← (sectionItems "type_definitions" items).foldlM declareTypeIn t
  let t ← (sectionItems "predicate_definitions" items).foldlM
    (fun t e => do return (t.declarePredicate (← e.predicateOf)).2) t
  let t ← (sectionItems "sentence_groups" items).foldlM
    (fun t e => do return t.addGroup (← e.groupOf)) t
  let t ← (sectionItems "ground_terms" items).foldlM
    (fun t e => do return (t.addFact (← e.sentenceOf)).2) t
  (sectionItems "annotations" items).foldlM
    (fun t e => do
      let (key, values) ← e.keyedValuesOf
      return { t with notes := t.notes.add key values }) t

def theoryOf (e : SExpr) : Except Error Theory :=
  match e.tagged? "Theory" with
  | some items => theoryOfSections items
  | none => e.fault .notTheory

end SExpr

def Theory.parse (input : Text) : Except Error Theory := do
  let e ← SExpr.parse input
  e.theoryOf

end Clausal
