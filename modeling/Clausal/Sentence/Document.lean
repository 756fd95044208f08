import Clausal.SExpr
import Clausal.Sentence.Printer

/-!
# Sentences as s-expressions

Each form of a sentence is a list tagged with the name of the form. The writer and the reader of
this notation stand side by side.
-/

namespace Clausal

def TypedName.document (v : TypedName) : Text :=
  "(Variable " ++ Text.doubleQuoted v.name ++
    (if v.type.isEmpty then [] else ascii ' ' :: Text.doubleQuoted v.type) ++ ")"

def Value.boolLiteral (b : Bool) : Text := if b then "#true" else "#false"

def Value.document : Value → Text
  | .null => "#null"
  | .bool b => boolLiteral b
  | .int n => intText n
  | .float x => x.text
  | .string t => Text.doubleQuoted t

namespace Sentence

mutual

/-- A sentence as an s-expression. Nothing that can be read stands for a missing sentence. -/
def document : Sentence → Text
  | .term p args => "(Term " ++ Text.doubleQuoted p ++ spaced args ++ ")"
  | .var n t => (TypedName.mk n t).document
  | .const v => v.document
  | .neg s => "(Not " ++ document s ++ ")"
  | .conj ss => "(And" ++ spaced ss ++ ")"
  | .disj ss => "(Or" ++ spaced ss ++ ")"
  | .implies a b => "(Implies " ++ document a ++ " " ++ document b ++ ")"
  | .iff a b => "(Iff " ++ document a ++ " " ++ document b ++ ")"
  | .forAll vars s =>
    "(Forall (" ++ Text.join " " (vars.map TypedName.document) ++ ") " ++ document s ++ ")"
  | .forSome vars s =>
    "(Exists (" ++ Text.join " " (vars.map TypedName.document) ++ ") " ++ document s ++ ")"
  | .weighted w s => "(Probability " ++ w.text ++ " " ++ document s ++ ")"
  | .evidence holds s => "(Evidence " ++ Value.boolLiteral holds ++ " " ++ document s ++ ")"
  | .missing => Sentence.missing.text

/-- The members of a list, each after a space. -/
def spaced : List Sentence → Text
  | [] => []
  | s :: ss => ascii ' ' :: document s ++ spaced ss

end

end Sentence

namespace SExpr

def fault {α : Type} (e : SExpr) (f : ReadFault) : Except Error α := .error (.malformed e.pos f)

/-- The text of a string atom that plays a role. -/
def stringOf (role : Text) : SExpr → Except Error Text
  | .atom _ (.string t) => .ok t
  | e => e.fault (.notString role)

/-- Like `stringOf`, but null stands for the empty text. -/
def optionalStringOf (role : Text) : SExpr → Except Error Text
  | .atom _ .null => .ok []
  | e => e.stringOf role

/-- The variable declared by the items after the tag. -/
def variableOfItems (pos : Position) : List SExpr → Except Error TypedName
  | [name] => do return ⟨← name.stringOf "variable name", []⟩
  | [name, type] => do
    let name ← name.stringOf "variable name"
    return ⟨name, ← type.stringOf "variable type"⟩
  | _ => .error (.malformed pos .notVariable)

def variableOf (e : SExpr) : Except Error TypedName :=
  match e.tagged? "Variable" with
  | some items => variableOfItems e.pos items
  | none => e.fault .notVariable

def variablesOf : SExpr → Except Error (List TypedName)
  | .list _ items => items.mapM variableOf
  | e => e.fault .notVariableList

/-- A weight: a float or an integer. -/
def weightOf : SExpr → Except Error Binary64
  | .atom _ (.float x) => .ok x
  | .atom _ (.int n) => .ok (.ofInt n.toInt)
  | e => e.fault .notWeight

def boolOf : SExpr → Except Error Bool
  | .atom _ (.bool b) => .ok b
  | e => e.fault .notBool

/-- A construction at a position, where a fault of it is reported. -/
def built (pos : Position) : Except BuildFault Sentence → Except Error Sentence
  | .ok s => .ok s
  | .error f => .error (.malformed pos (.badSentence f))

/-- The fault of a form with a wrong number of operands. -/
def wrongCount {α : Type} (pos : Position) (form : Text) (count : Nat) : Except Error α :=
  .error (.malformed pos (.operandCount form count))

def constantOf (pos : Position) : Atom → Except Error Sentence
  | .symbol text => .error (.malformed pos (.unexpectedSymbol text))
  | .string t => .ok (.const (.string t))
  | .int n => .ok (.const (.int n))
  | .float x => .ok (.const (.float x))
  | .bool b => .ok (.const (.bool b))
  | .null => .ok (.const .null)

mutual

def sentenceOf : SExpr → Except Error Sentence
  | .list pos (.atom _ (.symbol tag) :: items) =>
    if tag = "Term" then
      match items with
      | [] => .error (.malformed pos .noPredicateName)
      | predicate :: args => do
        let args ← argumentsOf args
        built pos (Sentence.Build.term (← predicate.stringOf "predicate") args)
    else if tag = "Variable" then do
      let v ← variableOfItems pos items
      return .var v.name v.type
    else if tag = "Not" then
      match items with
      | [s] => do return .neg (← sentenceOf s)
      | _ => wrongCount pos tag 1
    else if tag = "And" then do return .conj (← sentencesOf items)
    else if tag = "Or" then do return .disj (← sentencesOf items)
    else if tag = "Implies" then
      match items with
      | [a, b] => do
        let a ← sentenceOf a
        return .implies a (← sentenceOf b)
      | _ => wrongCount pos tag 2
    else if tag = "Iff" then
      match items with
      | [a, b] => do
        let a ← sentenceOf a
        return .iff a (← sentenceOf b)
      | _ => wrongCount pos tag 2
    else if tag = "Forall" then
      match items with
      | [vars, s] => do
        let vars ← variablesOf vars
        return .forAll vars (← sentenceOf s)
      | _ => wrongCount pos tag 2
    else if tag = "Exists" then
      match items with
      | [vars, s] => do
        let vars ← variablesOf vars
        return .forSome vars (← sentenceOf s)
      | _ => wrongCount pos tag 2
    else if tag = "Probability" then
      match items with
      | [w, s] => do
        let w ← weightOf w
        built pos (Sentence.Build.weighted w (← sentenceOf s))
      | _ => wrongCount pos tag 2
    else if tag = "Evidence" then
      match items with
      | [holds, s] => do
        let holds ← boolOf holds
        return .evidence holds (← sentenceOf s)
      | _ => wrongCount pos tag 2
    else .error (.malformed pos (.unknownForm tag))
  | e => e.fault .notTagged

def sentencesOf : List SExpr → Except Error (List Sentence)
  | [] => .ok []
  | e :: es => do
    let s ← sentenceOf e
    return s :: (← sentencesOf es)

/-- Arguments of a term: atoms are constants, lists are sentences. -/
def argumentsOf : List SExpr → Except Error (List Sentence)
  | [] => .ok []
  | .atom pos value :: es => do
    let s ← constantOf pos value
    return s :: (← argumentsOf es)
  | .list pos items :: es => do
    let s ← sentenceOf (.list pos items)
    return s :: (← argumentsOf es)

end

end SExpr

def Sentence.parse (input : Text) : Except Error Sentence := do
  let e ← SExpr.parse input
  e.sentenceOf

end Clausal
