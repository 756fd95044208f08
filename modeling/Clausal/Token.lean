import Clausal.Text

/-!
# Tokens

Documents are read in one of two lexicons: that of s-expressions and that of Prolog facts. A token
has a kind, a text and the position of its first byte.
-/

namespace Clausal

/-- A place in a document. Lines and columns count from one; columns count bytes. -/
structure Position where
  line : UInt32
  column : UInt32
deriving DecidableEq, Inhabited

namespace Position

def start : Position := ⟨1, 1⟩

def after (p : Position) (b : UInt8) : Position :=
  if b = 10 then ⟨p.line + 1, 1⟩ else ⟨p.line, p.column + 1⟩

def afterText (p : Position) (t : Text) : Position := t.foldl after p

end Position

inductive TokenKind where
  | symbol
  | variable
  | string
  | quotedAtom
  | integer
  | float
  | literal
  | leftParen
  | rightParen
  | leftBracket
  | rightBracket
  | comma
  | dot
  | neck
  | endOfInput
deriving DecidableEq, Inhabited

namespace TokenKind

def all : List TokenKind :=
  [.symbol, .variable, .string, .quotedAtom, .integer, .float, .literal, .leftParen, .rightParen,
    .leftBracket, .rightBracket, .comma, .dot, .neck, .endOfInput]

def name : TokenKind → Text
  | .symbol => "symbol"
  | .variable => "variable"
  | .string => "string"
  | .quotedAtom => "quoted atom"
  | .integer => "integer"
  | .float => "float"
  | .literal => "#literal"
  | .leftParen => "("
  | .rightParen => ")"
  | .leftBracket => "["
  | .rightBracket => "]"
  | .comma => ","
  | .dot => "."
  | .neck => ":-"
  | .endOfInput => "EOF"

end TokenKind

structure Token where
  kind : TokenKind
  text : Text
  pos : Position
deriving DecidableEq, Inhabited

inductive Lexicon where
  | sexpr
  | prolog
deriving DecidableEq, Inhabited

/-- The byte that starts a comment, which ends before the next line feed. -/
def Lexicon.comment : Lexicon → UInt8
  | .sexpr => ascii ';'
  | .prolog => ascii '%'

/-- What can be wrong with the bytes of a document. -/
inductive LexicalFault where
  | unterminatedString
  | unterminatedAtom
  | unknownLiteral (text : Text)
  | unexpectedByte (byte : UInt8)
deriving DecidableEq

def LexicalFault.message : LexicalFault → Text
  | .unterminatedString => "unterminated string"
  | .unterminatedAtom => "unterminated quoted atom"
  | .unknownLiteral text => "unknown literal '" ++ text ++ "'"
  | .unexpectedByte byte => "unexpected character '" ++ [byte] ++ "'"

end Clausal
