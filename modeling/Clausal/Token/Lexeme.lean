import Clausal.Token
import Clausal.Text.Quoted

/-!
# Lexemes

A lexeme is the text of one token as it stands in a document. Each recognizer splits its input
into a lexeme and the rest, so that the two concatenated are the input again.
-/

namespace Clausal

/-- The outcome of recognizing a lexeme: the bytes taken, the bytes left, and either the kind and
text of a token or a fault. -/
structure Lexeme where
  taken : Text
  rest : Text
  outcome : Except LexicalFault (TokenKind × Text)

namespace Lexeme

/-- A token whose text is the lexeme itself. -/
def plain (kind : TokenKind) (taken rest : Text) : Lexeme := ⟨taken, rest, .ok (kind, taken)⟩

/-- The raw text up to the closing quote, and what follows that quote. A backslash hides the byte
after it. -/
def beforeQuote? (quote : UInt8) : Text → Option (Text × Text)
  | [] => none
  | [b] => if b = quote then some ([], []) else none
  | b :: c :: rest =>
    if b = quote then some ([], c :: rest)
    else if b = ascii '\\' then
      (beforeQuote? quote rest).map fun (raw, after) => (b :: c :: raw, after)
    else (beforeQuote? quote (c :: rest)).map fun (raw, after) => (b :: raw, after)

/-- A quoted text whose opening quote has been read off `input`. -/
def quoted (quote : UInt8) (kind : TokenKind) (fault : LexicalFault) (input : Text) : Lexeme :=
  match beforeQuote? quote input with
  | some (raw, rest) => ⟨quote :: raw ++ [quote], rest, .ok (kind, Text.unescape raw)⟩
  | none => ⟨quote :: input, [], .error fault⟩

/-- A point and digits, if both are there. -/
def fractionPart : Text → Text × Text
  | point :: rest =>
    if point = ascii '.' && !(rest.takeWhile Byte.isDigit).isEmpty then
      (point :: rest.takeWhile Byte.isDigit, rest.dropWhile Byte.isDigit)
    else ([], point :: rest)
  | [] => ([], [])

def signPart (isSign : UInt8 → Bool) : Text → Text × Text
  | b :: rest => if isSign b then ([b], rest) else ([], b :: rest)
  | [] => ([], [])

/-- An exponent mark, an optional sign and digits, if there are digits. -/
def exponentPart : Text → Text × Text
  | mark :: rest =>
    let (sign, digits) := signPart (fun b => b == ascii '+' || b == ascii '-') rest
    if (mark = ascii 'e' || mark = ascii 'E') && !(digits.takeWhile Byte.isDigit).isEmpty then
      (mark :: sign ++ digits.takeWhile Byte.isDigit, digits.dropWhile Byte.isDigit)
    else ([], mark :: rest)
  | [] => ([], [])

/-- A numeral: a float if it has a fraction or an exponent, an integer otherwise. -/
def number (input : Text) : Lexeme :=
  let (sign, unsigned) := signPart (· == ascii '-') input
  let whole := unsigned.takeWhile Byte.isDigit
  let (fraction, afterFraction) := fractionPart (unsigned.dropWhile Byte.isDigit)
  let (exponent, rest) := exponentPart afterFraction
  plain (if fraction.isEmpty && exponent.isEmpty then .integer else .float)
    (sign ++ whole ++ fraction ++ exponent) rest

/-- Punctuation that may stand in a symbol of an s-expression. -/
def isSymbolMark (b : UInt8) : Bool := (Text.ofString "_+-*/<>=!?:.").contains b

def isSymbolByte (b : UInt8) : Bool := Byte.isAlnum b || isSymbolMark b

def symbol (input : Text) : Lexeme :=
  plain .symbol (input.takeWhile isSymbolByte) (input.dropWhile isSymbolByte)

/-- A word of Prolog: a variable if it starts with a capital or an underscore. -/
def word (input : Text) : Lexeme :=
  let isVariable := (input.head?.map fun b => Byte.isUpper b || b == ascii '_').getD false
  plain (if isVariable then .variable else .symbol)
    (input.takeWhile Byte.isWord) (input.dropWhile Byte.isWord)

/-- The literals of an s-expression: a hash and letters. -/
def literals : List Text := ["#true", "#false", "#null"]

/-- A literal whose hash has been read off `input`. -/
def literal (input : Text) : Lexeme :=
  let taken := ascii '#' :: input.takeWhile Byte.isAlpha
  ⟨taken, input.dropWhile Byte.isAlpha,
    if literals.contains taken then .ok (.literal, taken) else .error (.unknownLiteral taken)⟩

def startsNumber : Text → Bool
  | b :: c :: _ => Byte.isDigit b || (b == ascii '-' && Byte.isDigit c)
  | [b] => Byte.isDigit b
  | [] => false

/-- The punctuation that is a token by itself. -/
def punctuation? (lexicon : Lexicon) (input : Text) : Option Lexeme :=
  match lexicon, input with
  | _, [] => none
  | .sexpr, b :: rest =>
    if b = ascii '(' then some (plain .leftParen [b] rest)
    else if b = ascii ')' then some (plain .rightParen [b] rest)
    else none
  | .prolog, b :: rest =>
    if b = ascii '(' then some (plain .leftParen [b] rest)
    else if b = ascii ')' then some (plain .rightParen [b] rest)
    else if b = ascii '[' then some (plain .leftBracket [b] rest)
    else if b = ascii ']' then some (plain .rightBracket [b] rest)
    else if b = ascii ',' then some (plain .comma [b] rest)
    else if b = ascii ':' && rest.head? == some (ascii '-') then
      some (plain .neck ":-" (rest.drop 1))
    else if b = ascii '.' then some (plain .dot [b] rest)
    else none

/-- The lexeme at the start of a text that does not start with a blank or a comment. -/
def next (lexicon : Lexicon) (input : Text) : Lexeme :=
  match punctuation? lexicon input with
  | some found => found
  | none =>
    match input with
    | [] => plain .endOfInput [] []
    | b :: rest =>
      if b = ascii '\'' && lexicon = .prolog then
        quoted b .quotedAtom .unterminatedAtom rest
      else if b = ascii '"' then quoted b .string .unterminatedString rest
      else if b = ascii '#' && lexicon = .sexpr then literal rest
      else if startsNumber (b :: rest) then number (b :: rest)
      else
        match lexicon with
        | .sexpr =>
          if isSymbolByte b && b != ascii '.' then symbol (b :: rest)
          else ⟨[], b :: rest, .error (.unexpectedByte b)⟩
        | .prolog =>
          if Byte.isAlpha b || b == ascii '_' then word (b :: rest)
          else ⟨[], b :: rest, .error (.unexpectedByte b)⟩

end Lexeme

end Clausal
