import Clausal.Token.Lexeme

/-!
# The lexer

Blanks and comments between lexemes are skipped. A document can be read as a whole, which gives
its tokens up to the end or the first fault, or step by step with one token of lookahead.
-/

namespace Clausal

/-- A lexical fault and the position up to which the document had been read. -/
structure FaultAt where
  pos : Position
  fault : LexicalFault
deriving DecidableEq

/-- Where the tokens of a document stop: at its end or at a fault. -/
inductive Ending where
  | finished (pos : Position)
  | failed (fault : FaultAt)
deriving DecidableEq

/-- The tokens of a document before its end or its first fault. -/
structure TokenStream where
  tokens : List Token
  ending : Ending

namespace TokenStream

def push (token : Token) (s : TokenStream) : TokenStream := { s with tokens := token :: s.tokens }

/-- The tokens of `input` from position `pos` on, where the first `skip` bytes belong to a lexeme
or comment that has been dealt with already. -/
def scan (lexicon : Lexicon) (pos : Position) (skip : Nat) : Text → TokenStream
  | [] => ⟨[], .finished pos⟩
  | b :: rest =>
    match skip with
    | skip + 1 => scan lexicon (pos.after b) skip rest
    | 0 =>
      if b = lexicon.comment then
        scan lexicon (pos.after b) (rest.takeWhile (· != 10)).length rest
      else if Byte.isSpace b then scan lexicon (pos.after b) 0 rest
      else
        let lexeme := Lexeme.next lexicon (b :: rest)
        match lexeme.outcome with
        | .ok (kind, text) =>
          push ⟨kind, text, pos⟩ (scan lexicon (pos.after b) (lexeme.taken.length - 1) rest)
        | .error fault => ⟨[], .failed ⟨pos.afterText lexeme.taken, fault⟩⟩

def ofText (lexicon : Lexicon) (input : Text) : TokenStream := scan lexicon .start 0 input

/-- All tokens with the end of input as the last, or the first fault. -/
def toTokens (s : TokenStream) : Except FaultAt (List Token) :=
  match s.ending with
  | .finished pos => .ok (s.tokens ++ [⟨.endOfInput, [], pos⟩])
  | .failed fault => .error fault

end TokenStream

/-- A lexer in the middle of a document. -/
structure Lexer where
  lexicon : Lexicon
  rest : Text
  pos : Position
  peeked : Option Token
deriving Inhabited

namespace Lexer

/-- A lexer at the start of a document whose first line has number `line`. -/
def ofText (lexicon : Lexicon) (line : UInt32) (input : Text) : Lexer :=
  ⟨lexicon, input, ⟨line, 1⟩, none⟩

/-- The blanks and comments at the start of a text, and the rest. -/
def gap (lexicon : Lexicon) (inComment : Bool) : Text → Text × Text
  | [] => ([], [])
  | b :: rest =>
    if (inComment && b != 10) || (!inComment && b == lexicon.comment) then
      let (blank, rest) := gap lexicon true rest
      (b :: blank, rest)
    else if Byte.isSpace b then
      let (blank, rest) := gap lexicon false rest
      (b :: blank, rest)
    else ([], b :: rest)

/-- Reads the next token. After a fault the lexer stands where reading stopped. -/
def next (lexer : Lexer) : Except FaultAt Token × Lexer :=
  match lexer.peeked with
  | some token => (.ok token, { lexer with peeked := none })
  | none =>
    let (blank, input) := gap lexer.lexicon false lexer.rest
    let pos := lexer.pos.afterText blank
    let lexeme := Lexeme.next lexer.lexicon input
    let after := pos.afterText lexeme.taken
    let lexer := { lexer with rest := lexeme.rest, pos := after }
    match lexeme.outcome with
    | .ok (kind, text) => (.ok ⟨kind, text, pos⟩, lexer)
    | .error fault => (.error ⟨after, fault⟩, lexer)

/-- Reads the next token and keeps it for the following read. -/
def peek (lexer : Lexer) : Except FaultAt Token × Lexer :=
  match lexer.next with
  | (.ok token, lexer) => (.ok token, { lexer with peeked := some token })
  | (.error fault, lexer) => (.error fault, lexer)

end Lexer

end Clausal
