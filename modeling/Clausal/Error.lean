import Clausal.Token
import Clausal.Sentence.Builder

/-!
# Errors and diagnostics

Every way in which an operation can be refused is a constructor of `Error`. An error belongs to a
kind and has a message. A diagnostic is an error reported beside a result, with the place of the
sentence it is about.
-/

namespace Clausal

/-- A message under a label. -/
def Text.labelled (label message : Text) : Text := label ++ ": " ++ message

/-- A line with a place, which is a member of a group, if a group is named. -/
def Text.placed (line group : Text) (index : Nat) : Text :=
  if group.isEmpty then line else line ++ " [" ++ group ++ "#" ++ Text.ofNat index ++ "]"

inductive ErrorKind where
  | duplicateDeclaration
  | unknownType
  | cyclicTypeAlias
  | arityMismatch
  | nonGroundFact
  | unsafeHeadVariable
  | unsupportedNegation
  | unsupportedConstraint
  | unsupportedAnnotations
  | unstratifiedNegation
  | parseError
  | roundTripMismatch
deriving DecidableEq, Inhabited

namespace ErrorKind

def all : List ErrorKind :=
  [.duplicateDeclaration, .unknownType, .cyclicTypeAlias, .arityMismatch, .nonGroundFact,
    .unsafeHeadVariable, .unsupportedNegation, .unsupportedConstraint, .unsupportedAnnotations,
    .unstratifiedNegation, .parseError, .roundTripMismatch]

def name : ErrorKind → Text
  | .duplicateDeclaration => "DuplicateDeclaration"
  | .unknownType => "UnknownType"
  | .cyclicTypeAlias => "CyclicTypeAlias"
  | .arityMismatch => "ArityMismatch"
  | .nonGroundFact => "NonGroundFact"
  | .unsafeHeadVariable => "UnsafeHeadVariable"
  | .unsupportedNegation => "UnsupportedNegationShape"
  | .unsupportedConstraint => "UnsupportedConstraintShape"
  | .unsupportedAnnotations => "UnsupportedAnnotation"
  | .unstratifiedNegation => "UnstratifiedNegation"
  | .parseError => "ParseError"
  | .roundTripMismatch => "RoundTripMismatch"

/-- The label of messages about errors of the kind with a number. Past the last kind it is a
question mark. -/
def label (number : Nat) : Text := (all[number]?.map name).getD "?"

def line (kind : ErrorKind) (message : Text) : Text := Text.labelled kind.name message

end ErrorKind

/-- What can be wrong at a place of a document. -/
inductive ReadFault where
  | lexical (fault : LexicalFault)
  | unterminatedList
  | unexpectedToken (kind : TokenKind)
  | unexpectedClose
  | unexpectedEnd
  | integerRange (text : Text)
  | floatRange (text : Text)
  | trailingInput
  | notTagged
  | noPredicateName
  | notString (role : Text)
  | operandCount (form : Text) (count : Nat)
  | notVariable
  | unexpectedSymbol (text : Text)
  | notVariableList
  | notWeight
  | notBool
  | badSentence (fault : BuildFault)
  | unknownForm (tag : Text)
  | notTheory
  | emptyUnion
  | notTypeForm
  | notPredicateForm
  | notArgumentPair
  | unknownPredicateField
  | notGroupForm
  | notGroupKind
  | unknownGroupField
  | notKeyedValues
  | expectedToken (what : Text) (got : TokenKind)
  | variableInFact (name : Text)
  | compoundArgument
  | notNumber (text : Text)
deriving DecidableEq

/-- The wording of each fault. The text of a badly built sentence ends at its first zero byte. -/
def ReadFault.message : ReadFault → Text
  | .lexical fault => fault.message
  | .unterminatedList => "unterminated list"
  | .unexpectedToken kind => "unexpected " ++ kind.name
  | .unexpectedClose => "unexpected ')'"
  | .unexpectedEnd => "unexpected end of input"
  | .integerRange text => "integer out of range '" ++ text ++ "'"
  | .floatRange text => "float out of range '" ++ text ++ "'"
  | .trailingInput => "trailing input"
  | .notTagged => "expected a tagged list"
  | .noPredicateName => "Term needs a predicate name"
  | .notString role => "expected a string for " ++ role
  | .operandCount form count => form ++ " expects " ++ Text.ofNat count ++ " operand(s)"
  | .notVariable => "expected (Variable \"name\" [\"type\"])"
  | .unexpectedSymbol text => "unexpected symbol '" ++ text ++ "'"
  | .notVariableList => "expected a variable list"
  | .notWeight => "expected a probability"
  | .notBool => "expected #true or #false"
  | .badSentence fault => fault.message.beforeNul
  | .unknownForm tag => "unknown form '" ++ tag ++ "'"
  | .notTheory => "expected (Theory ...)"
  | .emptyUnion => "Union needs at least one alternative"
  | .notTypeForm => "expected (Type ...) or (Union ...)"
  | .notPredicateForm => "expected (PredicateDefinition \"name\" ...)"
  | .notArgumentPair => "expected (\"argument\" \"type\")"
  | .unknownPredicateField => "unknown predicate field"
  | .notGroupForm => "expected (SentenceGroup \"name\" ...)"
  | .notGroupKind => "expected none, axiom or goal"
  | .unknownGroupField => "unknown group field"
  | .notKeyedValues => "expected (\"key\" \"value\"...)"
  | .expectedToken what got => "expected " ++ what ++ ", got " ++ got.name
  | .variableInFact name => "facts must be ground, found variable " ++ name
  | .compoundArgument => "compound arguments are not supported in facts"
  | .notNumber text => "expected a number, got '" ++ text ++ "'"

def Position.message (pos : Position) (message : Text) : Text :=
  Text.ofNat pos.line.toNat ++ ": ERROR: " ++ message ++ " at column " ++
    Text.ofNat pos.column.toNat

/-- Why an operation is refused. -/
inductive Error where
  | malformed (pos : Position) (fault : ReadFault)
  | emptyUnionType (name : Text)
  | primitiveRedeclared (name : Text)
  | typeRedeclared (name : Text)
  | cyclicType (name target : Text)
  | aliasTooDeep (name : Text)
  | unresolvedType (name : Text)
  | predicateRedeclared (name : Text)
  | repeatedArgument (predicate argument : Text)
  | wrongArity (predicate : Text) (args : List Sentence) (expected : Nat)
  | wrongColumns (predicate : Text) (expected got : Nat) (line : UInt32)
  | factNotTerm (fact : Sentence)
  | factWithVariables (fact : Sentence)
  | unsafeHead (name : Text) (head : Sentence)
  | noConstraints (kind : ErrorKind) (body : Sentence)
  | falsehood
  | notSentence (kind : SentenceKind)
  | universalInBody (body : Sentence)
  | wrapperInBody (kind : SentenceKind)
  | notLiteral (kind : SentenceKind)
  | compoundNegation (negated : Sentence)
  | notInBodyFormula (kind : SentenceKind)
  | missingOperand (kind : SentenceKind)
  | weightUnsupported
  | nestedWeights
  | evidenceUnsupported
  | evidenceNotGround (atom : Sentence)
  | noFirstOrderReading (s : Sentence)
  | notFormula (kind : SentenceKind)
  | notRational (message : Text)
  | notPrologLiteral (kind : SentenceKind)
  | notDatalogArgument (kind : SentenceKind)
  | inlineDisjunction (literal : Sentence)
  | noDatalogLiteral (literal : Sentence)
  | weightedClause (clause : Text)
  | constraintClause (clause : Text)
  | inTypeDeclaration (name : Text) (cause : Error)
  | inPredicateDeclaration (name : Text) (cause : Error)
  | negativeCycle (rule : Text)

namespace Error

def kind : Error → ErrorKind
  | .malformed .. => .parseError
  | .emptyUnionType .. => .unknownType
  | .primitiveRedeclared .. => .duplicateDeclaration
  | .typeRedeclared .. => .duplicateDeclaration
  | .cyclicType .. => .cyclicTypeAlias
  | .aliasTooDeep .. => .cyclicTypeAlias
  | .unresolvedType .. => .unknownType
  | .predicateRedeclared .. => .duplicateDeclaration
  | .repeatedArgument .. => .duplicateDeclaration
  | .wrongArity .. => .arityMismatch
  | .wrongColumns .. => .arityMismatch
  | .factNotTerm .. => .nonGroundFact
  | .factWithVariables .. => .nonGroundFact
  | .unsafeHead .. => .unsafeHeadVariable
  | .noConstraints kind _ => kind
  | .falsehood => .unsupportedConstraint
  | .notSentence .. => .unsupportedConstraint
  | .universalInBody .. => .unsupportedConstraint
  | .wrapperInBody .. => .unsupportedAnnotations
  | .notLiteral .. => .unsupportedConstraint
  | .compoundNegation .. => .unsupportedNegation
  | .notInBodyFormula .. => .unsupportedConstraint
  | .missingOperand .. => .unsupportedConstraint
  | .weightUnsupported => .unsupportedAnnotations
  | .nestedWeights => .unsupportedAnnotations
  | .evidenceUnsupported => .unsupportedAnnotations
  | .evidenceNotGround .. => .unsupportedAnnotations
  | .noFirstOrderReading .. => .unsupportedAnnotations
  | .notFormula .. => .unsupportedConstraint
  | .notRational .. => .unsupportedConstraint
  | .notPrologLiteral .. => .unsupportedConstraint
  | .notDatalogArgument .. => .unsupportedConstraint
  | .inlineDisjunction .. => .unsupportedConstraint
  | .noDatalogLiteral .. => .unsupportedNegation
  | .weightedClause .. => .unsupportedAnnotations
  | .constraintClause .. => .unsupportedConstraint
  | .inTypeDeclaration _ cause => cause.kind
  | .inPredicateDeclaration _ cause => cause.kind
  | .negativeCycle .. => .unstratifiedNegation

def message : Error → Text
  | .malformed pos fault => pos.message fault.message
  | .emptyUnionType name => "union type " ++ name ++ " needs at least one alternative"
  | .primitiveRedeclared name => "type " ++ name ++ " is a primitive and cannot be redeclared"
  | .typeRedeclared name => "type " ++ name ++ " is already declared differently"
  | .cyclicType name target => "type " ++ name ++ " resolves back to itself through " ++ target
  | .aliasTooDeep name => "alias chain too deep at " ++ name
  | .unresolvedType name => "cannot resolve type " ++ name
  | .predicateRedeclared name => "predicate " ++ name ++ " is already declared differently"
  | .repeatedArgument predicate argument =>
    "predicate " ++ predicate ++ " repeats argument " ++ argument
  | .wrongArity predicate args expected =>
    predicate ++ " expects " ++ Text.ofNat expected ++ " argument(s), got " ++
      Text.ofNat args.length ++ " in " ++ (Sentence.term predicate args).text
  | .wrongColumns predicate expected got line =>
    predicate ++ " expects " ++ Text.ofNat expected ++ " column(s), got " ++ Text.ofNat got ++
      " on line " ++ Text.ofNat line.toNat
  | .factNotTerm fact => "fact must be a Term, got " ++ fact.text
  | .factWithVariables fact => "fact contains variables: " ++ fact.text
  | .unsafeHead name head =>
    "variable " ++ name ++ " of head " ++ head.text ++
      " does not occur in a positive body literal"
  | .noConstraints _ body => "no integrity-constraint form in this target for " ++ body.text
  | .falsehood => "sentence asserts falsehood unconditionally"
  | .notSentence kind => kind.name ++ " is not a sentence"
  | .universalInBody body => "universal quantifier inside a clause body: " ++ body.text
  | .wrapperInBody kind => kind.name ++ " inside a clause body"
  | .notLiteral kind => kind.name ++ " used as a literal"
  | .compoundNegation negated => "negation of a compound formula: " ++ negated.text
  | .notInBodyFormula kind => kind.name ++ " cannot appear inside a body formula"
  | .missingOperand kind => (BuildFault.missingOperand kind).message
  | .weightUnsupported => "probabilistic weight has no equivalent in this target"
  | .nestedWeights => "nested probability annotations"
  | .evidenceUnsupported => "evidence has no clause form"
  | .evidenceNotGround atom => "evidence must be a ground atom, got " ++ atom.text
  | .noFirstOrderReading s => s.kind.name ++ " has no first-order reading: " ++ s.text
  | .notFormula kind => kind.name ++ " used as a formula"
  | .notRational message => message
  | .notPrologLiteral kind => kind.name ++ " is not a Prolog literal"
  | .notDatalogArgument kind => kind.name ++ " cannot be a Datalog argument"
  | .inlineDisjunction literal => "inline disjunction " ++ literal.text
  | .noDatalogLiteral literal => "no Datalog literal for " ++ literal.text
  | .weightedClause clause => "weighted clause " ++ clause
  | .constraintClause clause => "integrity constraint " ++ clause
  | .inTypeDeclaration name cause => "type " ++ name ++ ": " ++ cause.message
  | .inPredicateDeclaration name cause => "predicate " ++ name ++ ": " ++ cause.message
  | .negativeCycle rule => "negation inside a recursive cycle: " ++ rule

def line (e : Error) : Text := e.kind.line e.message

end Error

/-- A report on a sentence. It is the member with number `index` of the group, if a group is
named, and `sentence` is its text. -/
structure Diagnostic where
  kind : ErrorKind
  message : Text
  group : Text
  index : Nat
  sentence : Text
deriving DecidableEq, Inhabited

namespace Diagnostic

def ofError (e : Error) (group : Text) (index : Nat) (sentence : Text) : Diagnostic :=
  ⟨e.kind, e.message, group, index, sentence⟩

def line (d : Diagnostic) : Text := (d.kind.line d.message).placed d.group d.index

end Diagnostic

end Clausal
