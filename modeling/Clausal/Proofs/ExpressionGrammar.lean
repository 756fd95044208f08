import Clausal.Proofs.LexedTokens
import Clausal.Proofs.ReadFaults

/-!
# The grammar of expressions

An expression is a leaf or expressions between brackets. The reader takes exactly the documents
whose tokens form one expression and whose numbers can be stored, and the brackets and leaves of what
it gives are the tokens, one by one. Whatever has been read is kept on the stack: the pieces of a
state of reading grow by one with each token.

## Main results

`Reading.run_shows`: what is read consists of the tokens that were read.

`Reading.run_pieces`: the tokens of an expression are read as that expression.

`parse_follows_grammar`: documents are accepted by the grammar, and read without loss.
-/

namespace Clausal

/-! ### The leaves -/

namespace Numeral

/-- An integer is read if and only if it fits into 64 bits. -/
theorem integerAt_eq_ok_iff (f : Written) (isInteger : f.kind = .integer) (pos : Position)
    (n : Int64) : integerAt pos f.text = .ok n ↔ n.toInt = f.integer := by
  unfold integerAt
  rw [f.int64?_text isInteger]
  constructor
  · intro read
    split_ifs at read with range
    cases read
    have top : Int64.maxValue.toInt = 2 ^ 63 - 1 := rfl
    exact Int64.toInt_ofInt_of_le range.1 (by omega)
  · intro value
    rw [← value, if_pos ⟨n.minValue_le_toInt, n.toInt_le⟩, n.ofInt_toInt]

/-- A float is read if and only if the nearest number is finite. -/
theorem floatAt_eq_ok_iff (f : Written) (pos : Position) (x : Binary64) :
    floatAt pos f.text = .ok x ↔ x = f.number ∧ f.number.isFinite = true := by
  unfold floatAt finiteAt
  rw [f.float?_text]
  by_cases finite : f.number.isFinite = true
  · simp [finite, eq_comm]
  · simp [finite]

end Numeral

/-- What a token stands for as an atom. -/
inductive Token.Denotes : Token → Atom → Prop where
  | symbol (text : Text) (pos : Position) : Denotes ⟨.symbol, text, pos⟩ (.symbol text)
  | string (text : Text) (pos : Position) : Denotes ⟨.string, text, pos⟩ (.string text)
  | integer (f : Numeral.Written) (pos : Position) (n : Int64) (isInteger : f.kind = .integer)
      (value : n.toInt = f.integer) : Denotes ⟨.integer, f.text, pos⟩ (.int n)
  | float (f : Numeral.Written) (pos : Position) (isFloat : f.kind = .float)
      (finite : f.number.isFinite = true) : Denotes ⟨.float, f.text, pos⟩ (.float f.number)
  | null (pos : Position) : Denotes ⟨.literal, "#null", pos⟩ .null
  | bool (b : Bool) (pos : Position) :
      Denotes ⟨.literal, if b then "#true" else "#false", pos⟩ (.bool b)

/-- Whether the number that a token spells, if it spells one, can be stored: an integer in 64 bits,
a float as a finite number. -/
def Token.InRange (token : Token) : Prop :=
  ∀ f : Numeral.Written, f.kind = token.kind → f.text = token.text →
    (f.kind = .integer → -2 ^ 63 ≤ f.integer ∧ f.integer < 2 ^ 63) ∧
    (f.kind = .float → f.number.isFinite = true)

namespace SExpr

/-- What is read from a token of a document is what that token denotes. -/
theorem denotes_of_atomOfToken {token : Token} {value : Atom} (lexed : token.Lexed)
    (read : atomOfToken token = .ok value) : token.Denotes value := by
  obtain ⟨kind, text, pos⟩ := token
  cases kind with
  | symbol =>
    cases read
    exact .symbol text pos
  | string =>
    cases read
    exact .string text pos
  | integer =>
    -- The lexer has taken a numeral, so only its range decides.
    obtain ⟨f, isInteger, written⟩ := lexed.numeral (.inl rfl)
    dsimp only at isInteger written
    subst written
    simp only [atomOfToken, bind_ok_iff, pure_ok_iff,
      Numeral.integerAt_eq_ok_iff f isInteger] at read
    obtain ⟨n, value, rfl⟩ := read
    exact .integer f pos n isInteger value
  | float =>
    obtain ⟨f, isFloat, written⟩ := lexed.numeral (.inr rfl)
    dsimp only at isFloat written
    subst written
    simp only [atomOfToken, bind_ok_iff, pure_ok_iff, Numeral.floatAt_eq_ok_iff f] at read
    obtain ⟨_, ⟨rfl, finite⟩, rfl⟩ := read
    exact .float f pos isFloat finite
  | literal =>
    have known := lexed.literal rfl
    simp only [Lexeme.literals, List.mem_cons, List.not_mem_nil, or_false] at known
    rcases known with rfl | rfl | rfl
    · cases read
      exact .bool true pos
    · cases read
      exact .bool false pos
    · cases read
      exact .null pos
  | _ => cases read

theorem atomOfToken_of_denotes {token : Token} {value : Atom} (denotes : token.Denotes value) :
    atomOfToken token = .ok value := by
  cases denotes with
  | symbol => rfl
  | string => rfl
  | integer f pos n isInteger value =>
    have read := (Numeral.integerAt_eq_ok_iff f isInteger pos n).mpr value
    simp only [atomOfToken, read]
    rfl
  | float f pos isFloat finite =>
    have read := (Numeral.floatAt_eq_ok_iff f pos f.number).mpr ⟨rfl, finite⟩
    simp only [atomOfToken, read]
    rfl
  | null => rfl
  | bool b => cases b <;> rfl

end SExpr

/-- The kinds of tokens that are expressions by themselves. -/
def TokenKind.leaves : List TokenKind := [.symbol, .string, .integer, .float, .literal]

namespace Token

theorem Denotes.leaf {token : Token} {value : Atom} (denotes : token.Denotes value) :
    token.kind ∈ TokenKind.leaves := by
  cases denotes <;> simp [TokenKind.leaves]

theorem Denotes.inRange {token : Token} {value : Atom} (denotes : token.Denotes value) :
    token.InRange := by
  have read := SExpr.atomOfToken_of_denotes denotes
  -- The text decides what is read, so that every way to see it as a numeral has the same value.
  intro g sameKind sameText
  obtain ⟨kind, text, pos⟩ := token
  dsimp only at sameKind sameText
  subst sameText
  refine ⟨fun isInteger => ?_, fun isFloat => ?_⟩
  · rw [isInteger] at sameKind
    subst sameKind
    simp only [SExpr.atomOfToken, bind_ok_iff, Numeral.integerAt_eq_ok_iff g isInteger] at read
    obtain ⟨n, value, -⟩ := read
    rw [← value]
    exact ⟨n.le_toInt, n.toInt_lt⟩
  · rw [isFloat] at sameKind
    subst sameKind
    simp only [SExpr.atomOfToken, bind_ok_iff, Numeral.floatAt_eq_ok_iff g] at read
    obtain ⟨x, ⟨-, finite⟩, -⟩ := read
    exact finite

/-- A leaf whose number can be stored stands for an atom. -/
theorem exists_denotes {token : Token} (lexed : token.Lexed)
    (leaf : token.kind ∈ TokenKind.leaves) (inRange : token.InRange) :
    ∃ value, token.Denotes value := by
  obtain ⟨kind, text, pos⟩ := token
  simp only [TokenKind.leaves, List.mem_cons, List.not_mem_nil, or_false] at leaf
  rcases leaf with rfl | rfl | rfl | rfl | rfl
  · exact ⟨_, .symbol text pos⟩
  · exact ⟨_, .string text pos⟩
  · obtain ⟨f, isInteger, written⟩ := lexed.numeral (.inl rfl)
    have range := (inRange f isInteger written).1 isInteger
    dsimp only at written
    subst written
    exact ⟨_, .integer f pos (.ofInt f.integer) isInteger
      (Int64.toInt_ofInt_of_le range.1 range.2)⟩
  · obtain ⟨f, isFloat, written⟩ := lexed.numeral (.inr rfl)
    have finite := (inRange f isFloat written).2 isFloat
    dsimp only at written
    subst written
    exact ⟨_, .float f pos isFloat finite⟩
  · -- Every literal is read as some atom.
    by_cases null : text = "#null"
    · exact ⟨_, SExpr.denotes_of_atomOfToken lexed (if_pos null)⟩
    · exact ⟨_, SExpr.denotes_of_atomOfToken lexed (if_neg null)⟩

end Token

/-! ### The pieces of an expression -/

/-- A bracket or a leaf of an expression. -/
inductive SExpr.Piece where
  | opening (pos : Position)
  | closing
  | leaf (pos : Position) (value : Atom)

/-- Whether a token is the bracket or the leaf that a piece describes. -/
inductive Token.Shows (token : Token) : SExpr.Piece → Prop where
  | opening (isOpening : token.kind = .leftParen) : Shows token (.opening token.pos)
  | closing (isClosing : token.kind = .rightParen) : Shows token .closing
  | leaf {value : Atom} (denotes : token.Denotes value) : Shows token (.leaf token.pos value)

namespace Token

theorem inRange_of_kind {token : Token} (other : token.kind ≠ .integer ∧ token.kind ≠ .float) :
    token.InRange := by
  intro f sameKind _
  rw [sameKind]
  exact ⟨fun isInteger => absurd isInteger other.1, fun isFloat => absurd isFloat other.2⟩

theorem Shows.inRange {token : Token} {piece : SExpr.Piece} (shows : token.Shows piece) :
    token.InRange := by
  cases shows with
  | opening isOpening => exact inRange_of_kind (by rw [isOpening]; decide)
  | closing isClosing => exact inRange_of_kind (by rw [isClosing]; decide)
  | leaf denotes => exact denotes.inRange

theorem inRange_of_shows {tokens : List Token} {pieces : List SExpr.Piece}
    (shows : List.Forall₂ Shows tokens pieces) : ∀ token ∈ tokens, token.InRange := by
  intro token member
  obtain ⟨_, _, shown⟩ := partner_of_mem shows member
  exact shown.inRange

end Token

namespace SExpr

mutual

/-- The brackets and leaves of an expression from left to right. -/
def pieces : SExpr → List Piece
  | .atom pos value => [.leaf pos value]
  | .list pos items => .opening pos :: (piecesAll items ++ [.closing])

def piecesAll : List SExpr → List Piece
  | [] => []
  | e :: es => pieces e ++ piecesAll es

end

theorem piecesAll_append (es more : List SExpr) :
    piecesAll (es ++ more) = piecesAll es ++ piecesAll more := by
  induction es with
  | nil => rfl
  | cons e es ih => rw [List.cons_append, piecesAll, piecesAll, ih, List.append_assoc]

/-- The pieces that stand in open lists, the outermost first. -/
def piecesOpen : List OpenList → List Piece
  | [] => []
  | top :: stack => piecesOpen stack ++ .opening top.pos :: piecesAll top.items.reverse

/-- The pieces that a state of reading keeps. -/
def Reading.pieces : Reading → List Piece
  | .within stack => piecesOpen stack
  | .finished e => e.pieces

theorem Reading.pieces_place (e : SExpr) (stack : List OpenList) :
    (Reading.place e stack).pieces = piecesOpen stack ++ e.pieces := by
  cases stack with
  | nil => rfl
  | cons top stack =>
    simp only [place, Reading.pieces, piecesOpen, List.reverse_cons, piecesAll_append, piecesAll,
      List.append_nil, List.append_assoc, List.cons_append]

/-! ### What is read is what was written -/

/-- Each token adds one piece, the one that it shows. -/
theorem Reading.step_shows {token : Token} {reading next : Reading} (lexed : token.Lexed)
    (stepped : reading.step token = .ok next) :
    ∃ piece, token.Shows piece ∧ next.pieces = reading.pieces ++ [piece] := by
  cases reading with
  | finished e => cases stepped
  | within stack =>
    unfold Reading.step at stepped
    dsimp only at stepped
    split at stepped
    · next isOpening =>
      cases stepped
      exact ⟨_, .opening isOpening, by simp [Reading.pieces, piecesOpen, piecesAll]⟩
    · next top stack isClosing =>
      cases stepped
      -- The pieces of the innermost list stay where they are when it becomes an item.
      refine ⟨_, .closing isClosing, ?_⟩
      rw [pieces_place]
      simp [Reading.pieces, piecesOpen, SExpr.pieces]
    · cases stepped
    · simp only [bind_ok_iff, pure_ok_iff] at stepped
      obtain ⟨value, read, rfl⟩ := stepped
      exact ⟨_, .leaf (denotes_of_atomOfToken lexed read), pieces_place _ _⟩

/-- Reading tokens keeps exactly the pieces that they show. -/
theorem Reading.run_shows {tokens : List Token} {reading last : Reading}
    (lexed : ∀ token ∈ tokens, token.Lexed) (ran : Reading.run tokens reading = .ok last) :
    ∃ shown, List.Forall₂ Token.Shows tokens shown ∧ last.pieces = reading.pieces ++ shown := by
  induction tokens generalizing reading with
  | nil =>
    cases ran
    exact ⟨[], .nil, (List.append_nil _).symm⟩
  | cons token tokens ih =>
    rw [List.forall_mem_cons] at lexed
    rw [Reading.run, bind_ok_iff] at ran
    obtain ⟨next, stepped, ran⟩ := ran
    obtain ⟨piece, shows, first⟩ := Reading.step_shows lexed.1 stepped
    obtain ⟨shown, others, rest⟩ := ih lexed.2 ran
    refine ⟨piece :: shown, .cons shows others, ?_⟩
    rw [rest, first, List.append_assoc]
    rfl

/-! ### What is written is read -/

theorem forall₂_append_right {α β : Type} {R : α → β → Prop} {as : List α} {bs cs : List β}
    (related : List.Forall₂ R as (bs ++ cs)) : ∃ first second, as = first ++ second ∧
      List.Forall₂ R first bs ∧ List.Forall₂ R second cs :=
  ⟨_, _, (List.take_append_drop bs.length as).symm, List.forall₂_take_append _ _ _ related,
    List.forall₂_drop_append _ _ _ related⟩

theorem shows_atom {tokens : List Token} {pos : Position} {value : Atom}
    (shows : List.Forall₂ Token.Shows tokens (SExpr.atom pos value).pieces) :
    ∃ token, tokens = [token] ∧ token.pos = pos ∧ token.Denotes value := by
  obtain ⟨token, _, leaf, none, rfl⟩ := List.forall₂_cons_right_iff.mp shows
  cases none
  cases leaf with
  | leaf denotes => exact ⟨token, rfl, rfl, denotes⟩

/-- The tokens of a list are a bracket, those of its items, and a bracket. -/
theorem shows_list {tokens : List Token} {pos : Position} {items : List SExpr}
    (shows : List.Forall₂ Token.Shows tokens (SExpr.list pos items).pieces) :
    ∃ opening inner closing, tokens = opening :: (inner ++ [closing]) ∧ opening.pos = pos ∧
      opening.kind = .leftParen ∧ List.Forall₂ Token.Shows inner (piecesAll items) ∧
      closing.kind = .rightParen := by
  obtain ⟨opening, _, opens, others, rfl⟩ := List.forall₂_cons_right_iff.mp shows
  obtain ⟨inner, last, rfl, all, ends⟩ := forall₂_append_right others
  obtain ⟨closing, _, closes, none, rfl⟩ := List.forall₂_cons_right_iff.mp ends
  cases none
  cases opens with
  | opening isOpening =>
    cases closes with
    | closing isClosing => exact ⟨opening, inner, closing, rfl, rfl, isOpening, all, isClosing⟩

theorem Reading.step_leaf {token : Token} {value : Atom} (denotes : token.Denotes value)
    (stack : List OpenList) :
    Reading.step token (.within stack) = .ok (place (.atom token.pos value) stack) := by
  have leaf := denotes.leaf
  refine Reading.step_atom ?_ ?_ (atomOfToken_of_denotes denotes) stack
  · intro isOpening
    rw [isOpening] at leaf
    exact absurd leaf (by decide)
  · intro isClosing
    rw [isClosing] at leaf
    exact absurd leaf (by decide)

mutual

/-- The tokens of an expression put this expression into the innermost open list. -/
theorem Reading.run_pieces (e : SExpr) {tokens : List Token} (stack : List OpenList)
    (rest : List Token) (shows : List.Forall₂ Token.Shows tokens e.pieces) :
    Reading.run (tokens ++ rest) (.within stack) = Reading.run rest (place e stack) := by
  match e with
  | .atom pos value =>
    obtain ⟨token, rfl, rfl, denotes⟩ := shows_atom shows
    rw [List.cons_append, Reading.run, Reading.step_leaf denotes stack]
    rfl
  | .list pos items =>
    obtain ⟨opening, inner, closing, rfl, rfl, isOpening, all, isClosing⟩ := shows_list shows
    have opened : Reading.step opening (.within stack) =
        .ok (.within (⟨opening.pos, []⟩ :: stack)) := by
      simp only [Reading.step, isOpening]
    have closed : Reading.step closing (.within (⟨opening.pos, items.reverse ++ []⟩ :: stack)) =
        .ok (place (.list opening.pos items) stack) := by
      simp only [Reading.step, isClosing, List.append_nil, List.reverse_reverse]
    -- Between its brackets the list is the innermost open one and takes up its items.
    rw [List.cons_append, Reading.run, opened]
    show Reading.run (inner ++ [closing] ++ rest) _ = _
    rw [List.append_assoc, Reading.run_piecesAll items ⟨opening.pos, []⟩ stack _ all,
      List.cons_append, Reading.run, closed]
    rfl

theorem Reading.run_piecesAll (es : List SExpr) {tokens : List Token} (top : OpenList)
    (stack : List OpenList) (rest : List Token)
    (shows : List.Forall₂ Token.Shows tokens (piecesAll es)) :
    Reading.run (tokens ++ rest) (.within (top :: stack)) =
      Reading.run rest (.within (⟨top.pos, es.reverse ++ top.items⟩ :: stack)) := by
  match es with
  | [] =>
    cases shows
    rfl
  | e :: es =>
    obtain ⟨first, others, rfl, one, all⟩ := forall₂_append_right shows
    rw [List.append_assoc, Reading.run_pieces e _ _ one, place,
      Reading.run_piecesAll es _ stack rest all, List.reverse_cons, List.append_assoc]
    rfl

end

/-! ### The grammar -/

mutual

/-- Tokens that form one expression: a leaf, or expressions between brackets. -/
inductive IsExpression : List Token → Prop where
  | leaf (token : Token) (isLeaf : token.kind ∈ TokenKind.leaves) : IsExpression [token]
  | list (opening closing : Token) (inner : List Token) (isOpening : opening.kind = .leftParen)
      (items : AreExpressions inner) (isClosing : closing.kind = .rightParen) :
      IsExpression (opening :: (inner ++ [closing]))

/-- Tokens that form any number of expressions, one after the other. -/
inductive AreExpressions : List Token → Prop where
  | nil : AreExpressions []
  | cons (first others : List Token) (expression : IsExpression first)
      (expressions : AreExpressions others) : AreExpressions (first ++ others)

end

mutual

/-- Tokens that show an expression form one by the grammar. -/
theorem isExpression_of_shows (e : SExpr) {tokens : List Token}
    (shows : List.Forall₂ Token.Shows tokens e.pieces) : IsExpression tokens := by
  match e with
  | .atom pos value =>
    obtain ⟨token, rfl, -, denotes⟩ := shows_atom shows
    exact .leaf token denotes.leaf
  | .list pos items =>
    obtain ⟨opening, inner, closing, rfl, -, isOpening, all, isClosing⟩ := shows_list shows
    exact .list opening closing inner isOpening (areExpressions_of_shows items all) isClosing

theorem areExpressions_of_shows (es : List SExpr) {tokens : List Token}
    (shows : List.Forall₂ Token.Shows tokens (piecesAll es)) : AreExpressions tokens := by
  match es with
  | [] =>
    cases shows
    exact .nil
  | e :: es =>
    obtain ⟨first, others, rfl, one, all⟩ := forall₂_append_right shows
    exact .cons first others (isExpression_of_shows e one) (areExpressions_of_shows es all)

end

mutual

/-- Tokens that form an expression by the grammar show one, if their numbers can be stored. -/
theorem exists_shows_of_isExpression {tokens : List Token} (expression : IsExpression tokens)
    (lexed : ∀ token ∈ tokens, token.Lexed) (inRange : ∀ token ∈ tokens, token.InRange) :
    ∃ e : SExpr, List.Forall₂ Token.Shows tokens e.pieces := by
  match expression with
  | .leaf token isLeaf =>
    obtain ⟨value, denotes⟩ := Token.exists_denotes (lexed token List.mem_cons_self) isLeaf
      (inRange token List.mem_cons_self)
    exact ⟨.atom token.pos value, .cons (.leaf denotes) .nil⟩
  | .list opening closing inner isOpening items isClosing =>
    simp only [List.forall_mem_cons, List.forall_mem_append] at lexed inRange
    obtain ⟨es, all⟩ := exists_shows_of_areExpressions items lexed.2.1 inRange.2.1
    exact ⟨.list opening.pos es,
      .cons (.opening isOpening) (List.rel_append all (.cons (.closing isClosing) .nil))⟩

theorem exists_shows_of_areExpressions {tokens : List Token} (expressions : AreExpressions tokens)
    (lexed : ∀ token ∈ tokens, token.Lexed) (inRange : ∀ token ∈ tokens, token.InRange) :
    ∃ es : List SExpr, List.Forall₂ Token.Shows tokens (piecesAll es) := by
  match expressions with
  | .nil => exact ⟨[], .nil⟩
  | .cons first others expression expressions =>
    rw [List.forall_mem_append] at lexed inRange
    obtain ⟨e, one⟩ := exists_shows_of_isExpression expression lexed.1 inRange.1
    obtain ⟨es, all⟩ := exists_shows_of_areExpressions expressions lexed.2 inRange.2
    exact ⟨e :: es, List.rel_append one all⟩

end

/-! ### Documents -/

/-- The tokens of a document that ends without a fault, before the end of input. -/
def Tokenizes (input : Text) (tokens : List Token) : Prop :=
  ∃ ending, (TokenStream.ofText .sexpr input).toTokens =
    .ok (tokens ++ [⟨.endOfInput, [], ending⟩])

theorem tokenizes_iff (input : Text) (tokens : List Token) : Tokenizes input tokens ↔
    (TokenStream.ofText .sexpr input).tokens = tokens ∧
      ∃ ending, (TokenStream.ofText .sexpr input).ending = .finished ending := by
  unfold Tokenizes TokenStream.toTokens
  cases (TokenStream.ofText .sexpr input).ending with
  | finished pos => simp
  | failed fault => simp

/-- A document is parsed if and only if its tokens lead from nothing to a finished expression. -/
theorem parse_ok_iff_run (input : Text) (e : SExpr) : parse input = .ok e ↔
    ∃ tokens, Tokenizes input tokens ∧ Reading.run tokens (.within []) = .ok (.finished e) := by
  simp only [tokenizes_iff, and_assoc, exists_eq_left', parse, bind_ok_iff]
  constructor
  · rintro ⟨reading, ran, finished⟩
    -- Only a finished expression at the end of input is a result.
    unfold Reading.finish at finished
    split at finished
    · cases finished
    · next ended =>
      cases finished
      exact ⟨⟨_, ended⟩, ran⟩
    · cases finished
    · cases finished
  · rintro ⟨⟨ending, ended⟩, ran⟩
    refine ⟨_, ran, ?_⟩
    rw [ended]
    rfl

theorem lexed_of_tokenizes {input : Text} {tokens : List Token}
    (tokenizes : Tokenizes input tokens) : ∀ token ∈ tokens, token.Lexed := by
  rw [← ((tokenizes_iff input tokens).mp tokenizes).1]
  exact TokenStream.lexed_of_mem_scan .start 0 input

/-- Reading gives the one expression whose brackets and leaves are the tokens. -/
theorem parse_ok_iff_shows (input : Text) (e : SExpr) : parse input = .ok e ↔
    ∃ tokens, Tokenizes input tokens ∧ List.Forall₂ Token.Shows tokens e.pieces := by
  rw [parse_ok_iff_run]
  constructor
  · rintro ⟨tokens, tokenizes, ran⟩
    -- Nothing stands on the stack at first, so what is shown is all there is.
    obtain ⟨shown, shows, pieces⟩ := Reading.run_shows (lexed_of_tokenizes tokenizes) ran
    refine ⟨tokens, tokenizes, ?_⟩
    rw [show e.pieces = shown from pieces]
    exact shows
  · rintro ⟨tokens, tokenizes, shows⟩
    have ran := Reading.run_pieces e [] [] shows
    rw [List.append_nil] at ran
    exact ⟨tokens, tokenizes, ran⟩

/-- A document is read as an expression exactly if its bytes can be split into tokens, these form
one expression of the grammar and every number in it can be stored. The brackets and leaves of what
is read are the tokens from left to right, with their values and positions, and whatever keeps a
document from being read is malformed input. -/
theorem parse_follows_grammar (input : Text) :
    (∀ e, parse input = .ok e ↔
      ∃ tokens, Tokenizes input tokens ∧ List.Forall₂ Token.Shows tokens e.pieces) ∧
    ((∃ e, parse input = .ok e) ↔
      ∃ tokens, Tokenizes input tokens ∧ IsExpression tokens ∧ ∀ token ∈ tokens, token.InRange) ∧
    ∀ error, parse input = .error error → error.kind = .parseError := by
  refine ⟨parse_ok_iff_shows input, ?_, parse_refuses input⟩
  simp only [parse_ok_iff_shows]
  constructor
  · rintro ⟨e, tokens, tokenizes, shows⟩
    exact ⟨tokens, tokenizes, isExpression_of_shows e shows, Token.inRange_of_shows shows⟩
  · rintro ⟨tokens, tokenizes, expression, inRange⟩
    obtain ⟨e, shows⟩ :=
      exists_shows_of_isExpression expression (lexed_of_tokenizes tokenizes) inRange
    exact ⟨e, tokens, tokenizes, shows⟩

end SExpr

end Clausal
