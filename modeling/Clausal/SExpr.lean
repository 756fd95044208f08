import Clausal.Token.Lexer
import Clausal.Token.Numeral

/-!
# S-expressions

Documents are s-expressions: atoms and bracketed lists, each with the position where it starts.
The reader works through the tokens with a stack of the lists that are still open.
-/

namespace Clausal

inductive Atom where
  | symbol (text : Text)
  | string (text : Text)
  | int (n : Int64)
  | float (x : Binary64)
  | bool (b : Bool)
  | null
deriving DecidableEq, Inhabited

/-- An s-expression with the position of its first byte. -/
inductive SExpr where
  | atom (pos : Position) (value : Atom)
  | list (pos : Position) (items : List SExpr)
deriving Inhabited

namespace SExpr

def pos : SExpr → Position
  | .atom pos _ => pos
  | .list pos _ => pos

/-- The items after the tag of a list that starts with the symbol `tag`. -/
def tagged? (tag : Text) : SExpr → Option (List SExpr)
  | .list _ (.atom _ (.symbol t) :: items) => if t = tag then some items else none
  | _ => none

/-- The atom of a token that is neither a bracket nor the end. -/
def atomOfToken (token : Token) : Except Error Atom :=
  match token.kind with
  | .symbol => .ok (.symbol token.text)
  | .string => .ok (.string token.text)
  | .integer => do return .int (← Numeral.integerAt token.pos token.text)
  | .float => do return .float (← Numeral.floatAt token.pos token.text)
  | .literal =>
    if token.text = "#null" then .ok .null else .ok (.bool (token.text == Text.ofString "#true"))
  | kind => .error (.malformed token.pos (.unexpectedToken kind))

/-- A list that is still open: where it started and its items so far, the last one first. -/
structure OpenList where
  pos : Position
  items : List SExpr

/-- The state of reading: the open lists, innermost first, or the finished expression. -/
inductive Reading where
  | within (stack : List OpenList)
  | finished (e : SExpr)

/-- Puts an expression into the innermost open list, or finishes with it. -/
def Reading.place (e : SExpr) : List OpenList → Reading
  | [] => .finished e
  | top :: stack => .within ({ top with items := e :: top.items } :: stack)

def Reading.step (token : Token) : Reading → Except Error Reading
  | .finished _ => .error (.malformed token.pos .trailingInput)
  | .within stack =>
    match token.kind, stack with
    | .leftParen, _ => .ok (.within (⟨token.pos, []⟩ :: stack))
    | .rightParen, top :: stack => .ok (place (.list top.pos top.items.reverse) stack)
    | .rightParen, [] => .error (.malformed token.pos .unexpectedClose)
    | _, _ => do return place (.atom token.pos (← atomOfToken token)) stack

def Reading.run : List Token → Reading → Except Error Reading
  | [], reading => .ok reading
  | token :: tokens, reading => do run tokens (← reading.step token)

/-- The expression read when the tokens have ended. -/
def Reading.finish (ending : Ending) (reading : Reading) : Except Error SExpr :=
  match ending, reading with
  | .failed fault, _ => .error (.malformed fault.pos (.lexical fault.fault))
  | .finished _, .finished e => .ok e
  | .finished pos, .within [] => .error (.malformed pos .unexpectedEnd)
  | .finished pos, .within _ => .error (.malformed pos .unterminatedList)

/-- The one expression that a document consists of. -/
def parse (input : Text) : Except Error SExpr := do
  let stream := TokenStream.ofText .sexpr input
  let reading ← Reading.run stream.tokens (.within [])
  reading.finish stream.ending

end SExpr

end Clausal
