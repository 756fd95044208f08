import Clausal.Registry
import Clausal.Token.Lexer
import Clausal.Token.Numeral

/-!
# Prolog facts

A list of facts is a sequence of atoms with constant arguments, each with a full stop. Predicates
are written in lower case and are looked up among the declared ones; the facts of a declared
predicate have its arity.
-/

namespace Clausal

namespace Facts

/-- The declared predicate that a name stands for: that of the same name, or else the first one
with the name as its lower case form. -/
def declaredName (r : Option Registry) (name : Text) : Text :=
  match r with
  | none => name
  | some r =>
    if (r.predicate? name).isSome then name
    else
      match r.predicates.find? fun p => p.name.toLower = name with
      | some p => p.name
      | none => name

/-- The words for truth values and null. -/
def wordValue (word : Text) : Value :=
  if word = "true" then .bool true
  else if word = "false" then .bool false
  else if word = "null" then .null
  else .string word

def constantOf (token : Token) : Except Error Value :=
  match token.kind with
  | .symbol => .ok (wordValue token.text)
  | .quotedAtom => .ok (.string token.text)
  | .string => .ok (.string token.text)
  | .integer => do return .int (← Numeral.integerAt token.pos token.text)
  | .float => do return .float (← Numeral.floatAt token.pos token.text)
  | .variable => .error (.malformed token.pos (.variableInFact token.text))
  | kind => .error (.malformed token.pos (.unexpectedToken kind))

/-- How far a fact has been read. Arguments are collected with the last one first. -/
inductive Stage where
  /-- Between facts. -/
  | between
  /-- After a predicate. -/
  | predicate (name : Text)
  /-- After an opening bracket. -/
  | opened (name : Text)
  /-- After a comma. -/
  | comma (name : Text) (args : List Sentence)
  /-- After an argument, which was the token `last`. -/
  | argument (name : Text) (args : List Sentence) (last : Token)
  /-- Before the full stop. -/
  | complete (name : Text) (args : List Sentence)

/-- The state of reading: the facts so far, the last one first, and the fact at hand. -/
structure Reading where
  facts : List Sentence
  stage : Stage

namespace Reading

def close (r : Option Registry) (name : Text) (args : List Sentence) (reading : Reading) :
    Except Error Reading := do
  let fact := Sentence.term (declaredName r name) args.reverse
  Registry.checkArity? r fact
  return ⟨fact :: reading.facts, .between⟩

def addArgument (name : Text) (args : List Sentence) (token : Token) (reading : Reading) :
    Except Error Reading := do
  let v ← constantOf token
  return { reading with stage := .argument name (.const v :: args) token }

def step (r : Option Registry) (reading : Reading) (token : Token) : Except Error Reading :=
  match reading.stage with
  | .between =>
    match token.kind with
    | .symbol => .ok { reading with stage := .predicate token.text }
    | .variable => .error (.malformed token.pos (.variableInFact token.text))
    | kind => .error (.malformed token.pos (.unexpectedToken kind))
  | .predicate name =>
    match token.kind with
    | .leftParen => .ok { reading with stage := .opened name }
    | .dot => reading.close r name []
    | kind => .error (.malformed token.pos (.expectedToken "'.'" kind))
  | .opened name =>
    if token.kind = .rightParen then .ok { reading with stage := .complete name [] }
    else reading.addArgument name [] token
  | .comma name args => reading.addArgument name args token
  | .argument name args last =>
    match token.kind with
    | .comma => .ok { reading with stage := .comma name args }
    | .rightParen => .ok { reading with stage := .complete name args }
    | kind =>
      if kind = .leftParen && last.kind = .symbol then
        .error (.malformed last.pos .compoundArgument)
      else .error (.malformed token.pos (.expectedToken "')'" kind))
  | .complete name args =>
    if token.kind = .dot then reading.close r name args
    else .error (.malformed token.pos (.expectedToken "'.'" token.kind))

def run (r : Option Registry) : List Token → Reading → Except Error Reading
  | [], reading => .ok reading
  | token :: tokens, reading => do run r tokens (← reading.step r token)

/-- The facts when the tokens have ended. -/
def finish (r : Option Registry) (ending : Ending) (reading : Reading) :
    Except Error (List Sentence) :=
  match ending, reading.stage with
  | .failed fault, _ => .error (.malformed fault.pos (.lexical fault.fault))
  | .finished _, .between => .ok reading.facts.reverse
  | .finished pos, _ => do
    let reading ← reading.step r ⟨.endOfInput, [], pos⟩
    return reading.facts.reverse

end Reading

/-- The facts of a document in Prolog notation. -/
def ofProlog (r : Option Registry) (input : Text) : Except Error (List Sentence) := do
  let stream := TokenStream.ofText .prolog input
  let reading ← Reading.run r stream.tokens ⟨[], .between⟩
  reading.finish r stream.ending

end Facts

end Clausal
