import Clausal.Proofs.Expressions
import Clausal.Proofs.Spelling

/-!
# Documents as gaps and lexemes

A document is read from left to right as a gap of blanks and comments, a lexeme, another gap and so on,
up to its end or a fault. Nothing is left out, so that the position of a token can be told from the
bytes before its lexeme. A lexer that reads step by step goes through the same gaps and lexemes, and
the token that it keeps after peeking is the one it would read next.

## Main results

`Lexer.next_quoted`: between quotes any text is one token, whatever follows it.

`TokenStream.fromLine_lossless`: a document is made of gaps and of a lexeme for each token.
-/

namespace Clausal

/-! ### Gaps -/

/-- Whether a text is a gap between lexemes, made of blanks and comments. Only at the end of a document
a comment need not be ended by a line feed. -/
inductive IsGap (lexicon : Lexicon) (atEnd : Bool) : Text → Prop where
  | nil : IsGap lexicon atEnd []
  | blank {b : UInt8} {rest : Text} (space : Byte.isSpace b = true) (more : IsGap lexicon atEnd rest) :
      IsGap lexicon atEnd (b :: rest)
  | comment (words : Text) {rest : Text} (oneLine : 10 ∉ words) (more : IsGap lexicon atEnd rest) :
      IsGap lexicon atEnd (lexicon.comment :: (words ++ 10 :: rest))
  | unfinished (words : Text) (oneLine : 10 ∉ words) (last : atEnd = true) :
      IsGap lexicon atEnd (lexicon.comment :: words)

theorem Lexicon.isSpace_comment (lexicon : Lexicon) : Byte.isSpace lexicon.comment = false := by
  cases lexicon <;> decide

/-- A comment may have any byte but a line feed in it. -/
theorem IsGap.lengthen {lexicon : Lexicon} {atEnd : Bool} {b : UInt8} {t : Text}
    (gap : IsGap lexicon atEnd (lexicon.comment :: t)) (inLine : b ≠ 10) :
    IsGap lexicon atEnd (lexicon.comment :: b :: t) := by
  generalize start : lexicon.comment :: t = whole at gap
  cases gap with
  | nil => cases start
  | blank space =>
    obtain ⟨rfl, -⟩ := List.cons.inj start
    rw [lexicon.isSpace_comment] at space
    cases space
  | comment words oneLine more =>
    obtain ⟨-, rfl⟩ := List.cons.inj start
    exact .comment (b :: words) (by simp [oneLine, Ne.symm inLine]) more
  | unfinished words oneLine last =>
    obtain ⟨-, rfl⟩ := List.cons.inj start
    exact .unfinished (b :: _) (by simp [oneLine, Ne.symm inLine]) last

namespace Lexer

/-- Induction along a gap: what each byte does, outside and inside of comments. -/
@[elab_as_elim]
theorem gap_induction (lexicon : Lexicon) {P : Bool → Text → Prop}
    (done : ∀ inComment, P inComment [])
    (opens : ∀ rest, P true rest → P false (lexicon.comment :: rest))
    (blank : ∀ b rest, Byte.isSpace b = true → P false rest → P false (b :: rest))
    (visible : ∀ b rest, Byte.isSpace b = false → b ≠ lexicon.comment → P false (b :: rest))
    (inside : ∀ b rest, b ≠ 10 → P true rest → P true (b :: rest))
    (closes : ∀ rest, P false rest → P true (10 :: rest)) (inComment : Bool) (input : Text) :
    P inComment input := by
  induction input generalizing inComment with
  | nil => exact done inComment
  | cons b rest ih =>
    cases inComment with
    | true =>
      by_cases newline : b = 10
      · exact newline ▸ closes rest (ih false)
      · exact inside b rest newline (ih true)
    | false =>
      by_cases comment : b = lexicon.comment
      · exact comment ▸ opens rest (ih true)
      · by_cases space : Byte.isSpace b = true
        · exact blank b rest space (ih false)
        · exact visible b rest (Bool.eq_false_iff.mpr space) comment

section Gap

variable (lexicon : Lexicon)

theorem gap_opens (rest : Text) : gap lexicon false (lexicon.comment :: rest) =
    (lexicon.comment :: (gap lexicon true rest).1, (gap lexicon true rest).2) := by
  simp [gap]

theorem gap_blank {b : UInt8} (space : Byte.isSpace b = true) (rest : Text) :
    gap lexicon false (b :: rest) = (b :: (gap lexicon false rest).1, (gap lexicon false rest).2) := by
  have notComment : b ≠ lexicon.comment := by
    rintro rfl
    simp [lexicon.isSpace_comment] at space
  simp [gap, space, notComment]

theorem gap_visible {b : UInt8} (visible : Byte.isSpace b = false) (notComment : b ≠ lexicon.comment)
    (rest : Text) : gap lexicon false (b :: rest) = ([], b :: rest) := by
  simp [gap, visible, notComment]

theorem gap_inside {b : UInt8} (inLine : b ≠ 10) (rest : Text) :
    gap lexicon true (b :: rest) = (b :: (gap lexicon true rest).1, (gap lexicon true rest).2) := by
  simp [gap, inLine]

theorem gap_closes (rest : Text) : gap lexicon true (10 :: rest) =
    (10 :: (gap lexicon false rest).1, (gap lexicon false rest).2) := by
  simp [gap, show Byte.isSpace 10 = true by decide]

/-- The gap and what follows it make up the text. -/
theorem gap_append (inComment : Bool) (input : Text) :
    (gap lexicon inComment input).1 ++ (gap lexicon inComment input).2 = input := by
  induction inComment, input using gap_induction lexicon with
  | done => rfl
  | opens rest ih => rw [gap_opens, List.cons_append, ih]
  | blank b rest space ih => rw [gap_blank lexicon space, List.cons_append, ih]
  | visible b rest visible notComment => rw [gap_visible lexicon visible notComment, List.nil_append]
  | inside b rest inLine ih => rw [gap_inside lexicon inLine, List.cons_append, ih]
  | closes rest ih => rw [gap_closes, List.cons_append, ih]

/-- After a gap the document is at its end, or goes on with a lexeme. -/
theorem gap_rest (inComment : Bool) (input : Text) {b : UInt8} {more : Text}
    (found : (gap lexicon inComment input).2 = b :: more) :
    Byte.isSpace b = false ∧ b ≠ lexicon.comment := by
  induction inComment, input using gap_induction lexicon with
  | done => cases found
  | opens rest ih => exact ih (by rwa [gap_opens lexicon] at found)
  | blank c rest space ih => exact ih (by rwa [gap_blank lexicon space] at found)
  | visible c rest visible notComment =>
    rw [gap_visible lexicon visible notComment] at found
    cases found
    exact ⟨visible, notComment⟩
  | inside c rest inLine ih => exact ih (by rwa [gap_inside lexicon inLine] at found)
  | closes rest ih => exact ih (by rwa [gap_closes lexicon] at found)

/-- What is passed over is a gap, with the byte that opened the comment if it starts in one. -/
theorem gap_isGap (inComment : Bool) (input : Text) :
    IsGap lexicon (gap lexicon inComment input).2.isEmpty
      ((if inComment then [lexicon.comment] else []) ++ (gap lexicon inComment input).1) := by
  induction inComment, input using gap_induction lexicon with
  | done inComment =>
    cases inComment with
    | true => exact .unfinished [] List.not_mem_nil rfl
    | false => exact .nil
  | opens rest ih =>
    rw [gap_opens]
    exact ih
  | blank b rest space ih =>
    rw [gap_blank lexicon space]
    exact .blank space ih
  | visible b rest visible notComment =>
    rw [gap_visible lexicon visible notComment]
    exact .nil
  | inside b rest inLine ih =>
    -- The byte stands between the start of the comment and what follows of it.
    rw [gap_inside lexicon inLine]
    exact IsGap.lengthen ih inLine
  | closes rest ih =>
    rw [gap_closes]
    exact .comment [] List.not_mem_nil ih

end Gap

end Lexer

/-! ### Scanning -/

namespace TokenStream

/-- A gap only moves the position. -/
theorem scan_gap (lexicon : Lexicon) (inComment : Bool) (pos : Position) (input : Text) :
    scan lexicon pos (if inComment then (input.takeWhile (· != 10)).length else 0) input =
      scan lexicon (pos.afterText (Lexer.gap lexicon inComment input).1) 0
        (Lexer.gap lexicon inComment input).2 := by
  induction inComment, input using Lexer.gap_induction lexicon generalizing pos with
  | done => rfl
  | opens rest ih =>
    -- Scanning has no state for comments: it skips as many bytes as the line still has.
    rw [Lexer.gap_opens]
    have step := ih (pos.after lexicon.comment)
    simp only [if_true] at step
    simp only [scan, if_true]
    exact step
  | blank b rest space ih =>
    rw [Lexer.gap_blank lexicon space]
    exact (scan_blank lexicon pos b rest space).trans (ih (pos.after b))
  | visible b rest visible notComment =>
    rw [Lexer.gap_visible lexicon visible notComment]
    rfl
  | inside b rest inLine ih =>
    rw [Lexer.gap_inside lexicon inLine, if_pos rfl, List.takeWhile_cons_of_pos (by simpa using inLine)]
    exact ih (pos.after b)
  | closes rest ih =>
    rw [Lexer.gap_closes, if_pos rfl, List.takeWhile_cons_of_neg (by simp)]
    exact (scan_blank lexicon pos 10 rest (by decide)).trans (ih (pos.after 10))

end TokenStream

/-- What a document goes on with: a gap up to its end, or a gap and a lexeme or a fault. -/
inductive Start (lexicon : Lexicon) : Text → Prop where
  | finished {gap : Text} (isGap : IsGap lexicon true gap)
      (passed : Lexer.gap lexicon false gap = (gap, [])) : Start lexicon gap
  | token {gap lexeme rest text : Text} {kind : TokenKind} (isGap : IsGap lexicon false gap)
      (passed : Lexer.gap lexicon false (gap ++ (lexeme ++ rest)) = (gap, lexeme ++ rest))
      (begins : Lexeme.Begins lexicon lexeme rest kind text) (spells : Spells lexeme kind text) :
      Start lexicon (gap ++ (lexeme ++ rest))
  | fault {gap rest : Text} {b : UInt8} {fault : LexicalFault}
      (passed : Lexer.gap lexicon false (gap ++ b :: rest) = (gap, b :: rest))
      (visible : Byte.isSpace b = false) (notComment : b ≠ lexicon.comment)
      (refused : (Lexeme.next lexicon (b :: rest)).outcome = .error fault) :
      Start lexicon (gap ++ b :: rest)

/-- One of the three is always the case. -/
theorem Start.exhaustive (lexicon : Lexicon) (input : Text) : Start lexicon input := by
  have covers := Lexer.gap_append lexicon false input
  have isGap := Lexer.gap_isGap lexicon false input
  have stops : ∀ b more, (Lexer.gap lexicon false input).2 = b :: more →
      Byte.isSpace b = false ∧ b ≠ lexicon.comment :=
    fun b more => Lexer.gap_rest lexicon false input
  -- From here on the gap is known only by what has been said of it.
  generalize passed : Lexer.gap lexicon false input = parts at covers isGap stops
  obtain ⟨gap, rest⟩ := parts
  subst covers
  cases rest with
  | nil =>
    rw [List.append_nil] at passed ⊢
    exact .finished isGap passed
  | cons b more =>
    obtain ⟨visible, notComment⟩ := stops b more rfl
    obtain ⟨covers, spells⟩ := Lexeme.next_heads lexicon b more
    generalize found : Lexeme.next lexicon (b :: more) = lexeme at covers spells
    obtain ⟨taken, left, outcome⟩ := lexeme
    cases outcome with
    | error fault => exact .fault passed visible notComment (by rw [found])
    | ok token =>
      obtain ⟨nonempty, spells⟩ := spells token.1 token.2 rfl
      obtain ⟨c, tail, rfl⟩ := List.exists_cons_of_ne_nil nonempty
      obtain ⟨rfl, -⟩ := List.cons.inj covers
      rw [covers] at passed found ⊢
      exact .token isGap passed ⟨⟨b, tail, rfl, visible, notComment⟩, found⟩ spells

namespace TokenStream

variable {lexicon : Lexicon} {gap : Text}

theorem scan_finished (pos : Position) (passed : Lexer.gap lexicon false gap = (gap, [])) :
    scan lexicon pos 0 gap = ⟨[], .finished (pos.afterText gap)⟩ := by
  have moved := scan_gap lexicon false pos gap
  rw [passed] at moved
  exact moved

/-- Behind a gap, a lexeme gives one token at its place, and scanning goes on behind it. -/
theorem scan_token (pos : Position) {lexeme rest text : Text} {kind : TokenKind}
    (passed : Lexer.gap lexicon false (gap ++ (lexeme ++ rest)) = (gap, lexeme ++ rest))
    (begins : Lexeme.Begins lexicon lexeme rest kind text) :
    scan lexicon pos 0 (gap ++ (lexeme ++ rest)) = push ⟨kind, text, pos.afterText gap⟩
      (scan lexicon ((pos.afterText gap).afterText lexeme) 0 rest) := by
  have moved := scan_gap lexicon false pos (gap ++ (lexeme ++ rest))
  rw [passed] at moved
  exact moved.trans (scan_lexeme (pos.afterText gap) begins)

/-- Behind a gap, a fault ends the tokens at the place that was reached. -/
theorem scan_fault (pos : Position) {rest : Text} {b : UInt8} {fault : LexicalFault}
    (passed : Lexer.gap lexicon false (gap ++ b :: rest) = (gap, b :: rest))
    (visible : Byte.isSpace b = false) (notComment : b ≠ lexicon.comment)
    (refused : (Lexeme.next lexicon (b :: rest)).outcome = .error fault) :
    scan lexicon pos 0 (gap ++ b :: rest) = ⟨[], .failed ⟨(pos.afterText gap).afterText
      (Lexeme.next lexicon (b :: rest)).taken, fault⟩⟩ := by
  have moved := scan_gap lexicon false pos (gap ++ b :: rest)
  rw [passed] at moved
  refine moved.trans ?_
  simp only [scan, notComment, visible, refused, if_false, Bool.false_eq_true]

end TokenStream

/-! ### Peeking -/

namespace TokenStream

/-- What a stream gives first. Behind the last token that is the end of input or the fault. -/
def head (s : TokenStream) : Except FaultAt Token :=
  match s.tokens, s.ending with
  | token :: _, _ => .ok token
  | [], .finished pos => .ok ⟨.endOfInput, [], pos⟩
  | [], .failed fault => .error fault

/-- The stream after what it gives first. -/
def tail (s : TokenStream) : TokenStream := { s with tokens := s.tokens.tail }

end TokenStream

namespace Lexer

/-- The tokens that a lexer has not read, apart from the one it has peeked at. -/
def ahead (lexer : Lexer) : TokenStream :=
  TokenStream.scan lexer.lexicon lexer.pos 0 lexer.rest

/-- Whether the tokens that a lexer is to give are those of a stream. -/
inductive Follows (s : TokenStream) (lexer : Lexer) : Prop where
  | unread (empty : lexer.peeked = none) (ahead : lexer.ahead = s)
  | peeked {token : Token} (held : lexer.peeked = some token) (head : s.head = .ok token)
      (ahead : lexer.ahead = s.tail)

/-- Without a token in the buffer, the next one is the first of those ahead. -/
theorem next_unread (lexer : Lexer) (empty : lexer.peeked = none) :
    lexer.next.1 = lexer.ahead.head ∧ ∀ token, lexer.ahead.head = .ok token →
      lexer.next.2.peeked = none ∧ lexer.next.2.ahead = lexer.ahead.tail := by
  obtain ⟨lexicon, input, pos, _⟩ := lexer
  obtain rfl := empty
  unfold ahead
  cases Start.exhaustive lexicon input with
  | finished isGap passed =>
    simp only [next, passed, TokenStream.scan_finished pos passed]
    exact ⟨rfl, fun _ _ => ⟨rfl, rfl⟩⟩
  | token isGap passed begins spells =>
    simp only [next, passed, begins.next_eq, TokenStream.scan_token pos passed begins]
    exact ⟨rfl, fun _ _ => ⟨trivial, rfl⟩⟩
  | fault passed visible notComment refused =>
    simp only [next, passed, refused, TokenStream.scan_fault pos passed visible notComment refused]
    exact ⟨rfl, fun _ given => by cases given⟩

section Steps

variable {s : TokenStream} {lexer : Lexer} (follows : Follows s lexer)

include follows

/-- Reading a token gives what the stream has next. -/
theorem next_follows : lexer.next.1 = s.head ∧ ∀ token, s.head = .ok token →
    lexer.next.2.peeked = none ∧ lexer.next.2.ahead = s.tail := by
  cases follows with
  | unread empty ahead =>
    subst ahead
    exact lexer.next_unread empty
  | peeked held head ahead =>
    rw [next, held, head]
    exact ⟨rfl, fun _ _ => ⟨rfl, ahead⟩⟩

/-- Looking ahead gives the same token and keeps the stream where it is. -/
theorem peek_follows :
    lexer.peek.1 = s.head ∧ ∀ token, s.head = .ok token → Follows s lexer.peek.2 := by
  obtain ⟨answer, moved⟩ := next_follows follows
  unfold peek
  generalize lexer.next = result at answer moved
  obtain ⟨outcome, after⟩ := result
  obtain rfl := answer
  cases given : s.head with
  | ok token =>
    refine ⟨rfl, fun other same => .peeked rfl given ?_⟩
    exact (moved token given).2
  | error fault => exact ⟨rfl, fun other same => by cases same⟩

end Steps

/-- The ways to ask a lexer for a token. -/
inductive Call where
  | next
  | peek
deriving DecidableEq

/-- The tokens that a sequence of calls reads, up to the first fault. -/
def read (lexer : Lexer) : List Call → List Token
  | [] => []
  | .next :: calls =>
    match lexer.next with
    | (.ok token, lexer) => token :: read lexer calls
    | (.error _, _) => []
  | .peek :: calls =>
    match lexer.peek with
    | (.ok _, lexer) => read lexer calls
    | (.error _, _) => []

end Lexer

namespace TokenStream

/-- The first tokens of a stream, the end of input again and again if there are not enough. A fault
ends the tokens for good. -/
def first (s : TokenStream) (n : Nat) : List Token :=
  match s.ending with
  | .finished pos => (s.tokens ++ List.replicate n (Token.mk .endOfInput [] pos)).take n
  | .failed _ => s.tokens.take n

theorem first_zero (s : TokenStream) : s.first 0 = [] := by
  unfold first
  split <;> rfl

theorem first_succ (s : TokenStream) (n : Nat) {token : Token} (given : s.head = .ok token) :
    s.first (n + 1) = token :: s.tail.first n := by
  obtain ⟨tokens, ending⟩ := s
  cases tokens with
  | cons first tokens =>
    cases given
    cases ending with
    | finished pos =>
      -- One end of input more than can be taken makes no difference.
      have enough : min (n - tokens.length) (n + 1) = min (n - tokens.length) n := by omega
      simp [TokenStream.first, tail, List.take_append, List.take_replicate, enough]
    | failed fault => rfl
  | nil =>
    cases ending with
    | finished pos =>
      cases given
      simp [first, tail, List.replicate_succ]
    | failed fault => cases given

theorem first_failed (s : TokenStream) (n : Nat) {fault : FaultAt} (failed : s.head = .error fault) :
    s.first n = [] := by
  obtain ⟨tokens, ending⟩ := s
  cases tokens with
  | cons first tokens => cases failed
  | nil =>
    cases ending with
    | finished pos => cases failed
    | failed fault => exact List.take_nil

end TokenStream

/-- Whatever is peeked at, what is read are the first tokens ahead. -/
theorem Lexer.read_follows {s : TokenStream} {lexer : Lexer} (follows : Follows s lexer)
    (calls : List Call) : lexer.read calls = s.first (calls.count .next) := by
  -- The stream is what is still to be read: reading goes on to its tail, peeking leaves it.
  induction calls generalizing s lexer with
  | nil => exact s.first_zero.symm
  | cons call calls ih =>
    cases call with
    | next =>
      obtain ⟨answer, moved⟩ := next_follows follows
      rw [read, List.count_cons_self]
      generalize lexer.next = result at answer moved
      obtain ⟨outcome, after⟩ := result
      obtain rfl := answer
      cases given : s.head with
      | ok token =>
        rw [s.first_succ _ given]
        exact congrArg _ (ih (.unread (moved token given).1 (moved token given).2))
      | error fault => exact (s.first_failed _ given).symm
    | peek =>
      obtain ⟨answer, kept⟩ := peek_follows follows
      rw [read, List.count_cons_of_ne (by decide)]
      generalize lexer.peek = result at answer kept
      obtain ⟨outcome, after⟩ := result
      obtain rfl := answer
      cases given : s.head with
      | ok token => exact ih (kept token given)
      | error fault => exact (s.first_failed _ given).symm

/-! ### Quoted texts -/

/-- A lexer in front of a lexeme reads its token and stops behind it. -/
theorem Lexer.next_begins {lexicon : Lexicon} {lexeme rest text : Text} {kind : TokenKind}
    (begins : Lexeme.Begins lexicon lexeme rest kind text) (pos : Position) :
    next ⟨lexicon, lexeme ++ rest, pos, none⟩ =
      (.ok ⟨kind, text, pos⟩, ⟨lexicon, rest, pos.afterText lexeme, none⟩) := by
  obtain ⟨b, more, starts, visible, notComment⟩ := begins.starts
  have passed : gap lexicon false (lexeme ++ rest) = ([], lexeme ++ rest) := by
    rw [starts, List.cons_append, gap_visible lexicon visible notComment]
  simp only [next, passed, begins.next_eq]
  rfl

/-- What is written between quotes is read as one token with the same text, and what follows the closing
quote is left. This does not depend on the bytes of the text or on those that follow, nor on whether
the lexer reads, peeks first or takes the document as a whole. -/
theorem Lexer.next_quoted {lexicon : Lexicon} {quote : UInt8} {kind : TokenKind}
    (quotes : Lexeme.Quotes lexicon quote kind) (t rest : Text) (pos : Position) :
    let lexer : Lexer := ⟨lexicon, quote :: Text.escape quote t ++ quote :: rest, pos, none⟩
    let after : Lexer := ⟨lexicon, rest, pos.afterText (Text.quoted quote t), none⟩
    lexer.next = (.ok ⟨kind, t, pos⟩, after) ∧ lexer.peek.2.next = lexer.next ∧
      lexer.ahead = .push ⟨kind, t, pos⟩ after.ahead ∧
      Text.unescape (Text.escape quote t) = t := by
  intro lexer after
  have begins := Lexeme.begins_quoted quotes t rest
  have input : quote :: Text.escape quote t ++ quote :: rest = Text.quoted quote t ++ rest := by
    simp [Text.quoted]
  have read : lexer.next = (.ok ⟨kind, t, pos⟩, after) := by
    rw [← next_begins begins pos, ← input]
  refine ⟨read, ?_, ?_, Text.unescape_escape quotes.isQuote t⟩
  · rw [peek, read]
    rfl
  · exact (congrArg (TokenStream.scan lexicon pos 0) input).trans (TokenStream.scan_lexeme pos begins)

/-- A zero byte and control bytes, both quotes, and backslashes, of which one is the last byte. -/
private def hostile : Text := [0, 8, 9, 10, 12, 13] ++ Text.ofString "'\"\\n\\"

theorem Lexer.next_quoted_hostile :
    (Lexer.mk .prolog (Text.singleQuoted hostile ++ "n'") ⟨7, 3⟩ none).next =
      (.ok ⟨.quotedAtom, hostile, ⟨7, 3⟩⟩, ⟨.prolog, "n'", ⟨7, 24⟩, none⟩) ∧
    (Lexer.mk .sexpr (Text.doubleQuoted hostile ++ "\"") ⟨7, 3⟩ none).next =
      (.ok ⟨.string, hostile, ⟨7, 3⟩⟩, ⟨.sexpr, "\"", ⟨7, 24⟩, none⟩) :=
  ⟨(next_quoted .quotedAtom hostile "n'" ⟨7, 3⟩).1,
    (next_quoted (.string .sexpr) hostile "\"" ⟨7, 3⟩).1⟩

/-! ### Positions -/

namespace Position

/-- The position behind a text that starts a line: every line feed before it counts for the line, and
every byte after the last of them for the column. -/
def behind (line : UInt32) (before : Text) : Position :=
  ⟨line + UInt32.ofNat (before.count 10),
    1 + UInt32.ofNat (before.reverse.takeWhile (· != 10)).length⟩

theorem behind_nil (line : UInt32) : behind line [] = ⟨line, 1⟩ := by
  simp [behind]

theorem behind_after (line : UInt32) (before : Text) (b : UInt8) :
    (behind line before).after b = behind line (before ++ [b]) := by
  by_cases newline : b = 10
  · simp [after, behind, newline, UInt32.ofNat_add, UInt32.add_assoc]
  · simp [after, behind, newline, UInt32.ofNat_add, UInt32.add_assoc]

theorem behind_afterText (line : UInt32) (before t : Text) :
    (behind line before).afterText t = behind line (before ++ t) := by
  induction t generalizing before with
  | nil => simp [afterText]
  | cons b t ih =>
    show ((behind line before).after b).afterText t = _
    rw [behind_after, ih, List.append_assoc, List.singleton_append]

end Position

/-! ### Stretches of a document -/

/-- A lexeme with the gap before it. -/
structure Stretch where
  gap : Text
  lexeme : Text

def Stretch.text (stretch : Stretch) : Text := stretch.gap ++ stretch.lexeme

/-- Whether a text, which stands behind another one, is made of stretches that spell tokens, one stretch
for each, and of a last gap, and whether the tokens are where their lexemes are. -/
structure Divides (lexicon : Lexicon) (line : UInt32) (before input : Text)
    (stretches : List Stretch) (last : Text) (tokens : List Token) : Prop where
  source : input = stretches.flatMap Stretch.text ++ last
  gaps : ∀ stretch ∈ stretches, IsGap lexicon false stretch.gap
  lastGap : IsGap lexicon true last
  spelled : List.Forall₂ (fun stretch token => stretch.lexeme ≠ [] ∧
    Spells stretch.lexeme token.kind token.text) stretches tokens
  placed : ∀ (i : Nat) (stretch : Stretch) (token : Token), stretches[i]? = some stretch →
    tokens[i]? = some token → token.pos =
      .behind line (before ++ (stretches.take i).flatMap Stretch.text ++ stretch.gap)

theorem Divides.cons {lexicon : Lexicon} {line : UInt32} {before gap lexeme input last text : Text}
    {kind : TokenKind} {stretches : List Stretch} {tokens : List Token}
    (isGap : IsGap lexicon false gap) (nonempty : lexeme ≠ []) (spells : Spells lexeme kind text)
    (rest : Divides lexicon line (before ++ gap ++ lexeme) input stretches last tokens) :
    Divides lexicon line before (gap ++ (lexeme ++ input)) (⟨gap, lexeme⟩ :: stretches) last
      (⟨kind, text, .behind line (before ++ gap)⟩ :: tokens) where
  source := by simp [Stretch.text, ← rest.source]
  gaps := List.forall_mem_cons.mpr ⟨isGap, rest.gaps⟩
  lastGap := rest.lastGap
  spelled := .cons ⟨nonempty, spells⟩ rest.spelled
  placed := by
    intro i stretch token listed found
    cases i with
    | zero =>
      cases listed
      cases found
      simp
    | succ i =>
      rw [rest.placed i stretch token listed found]
      simp [Stretch.text]

/-- A document without a fault is made of gaps and lexemes, one lexeme for each token and at its
place. -/
theorem TokenStream.scan_divides (lexicon : Lexicon) (line : UInt32) (before input : Text)
    {pos : Position} (finished : (scan lexicon (.behind line before) 0 input).ending = .finished pos) :
    pos = .behind line (before ++ input) ∧ ∃ stretches last,
      Divides lexicon line before input stretches last
        (scan lexicon (.behind line before) 0 input).tokens := by
  -- On the length of what is left, because a lexeme takes more than one step of the input.
  induction size : input.length using Nat.strongRecOn generalizing input before with
  | ind n ih =>
    cases Start.exhaustive lexicon input with
    | finished isGap passed =>
      rw [scan_finished _ passed] at finished ⊢
      cases finished
      refine ⟨Position.behind_afterText line before input, [], input, ?_⟩
      exact ⟨rfl, by simp, isGap, .nil, by simp⟩
    | @token gap lexeme rest text kind isGap passed begins spells =>
      obtain ⟨b, more, starts, -⟩ := begins.starts
      rw [scan_token _ passed begins, Position.behind_afterText, Position.behind_afterText]
        at finished ⊢
      have shorter : rest.length < n := by
        simp only [← size, starts, List.length_append, List.length_cons]
        omega
      obtain ⟨ends, stretches, last, divides⟩ :=
        ih _ shorter (before ++ gap ++ lexeme) rest finished rfl
      exact ⟨by simpa using ends, _, last, divides.cons isGap (by simp [starts]) spells⟩
    | fault passed visible notComment refused =>
      rw [scan_fault _ passed visible notComment refused] at finished
      cases finished

/-! ### The whole document -/

/-- The tokens of a document whose first line has a number of its own. -/
def TokenStream.fromLine (lexicon : Lexicon) (line : UInt32) (input : Text) : TokenStream :=
  scan lexicon ⟨line, 1⟩ 0 input

/-- A document without faults is made of gaps and of a lexeme for each token before the end of input,
every token is where its lexeme is, and a lexer gives these tokens in order, and then the end of input
again and again, whatever is peeked at in between. Up to the first fault this holds of any document.
The numbers of lines and columns are those modulo the size of a word. -/
theorem TokenStream.fromLine_lossless (lexicon : Lexicon) (line : UInt32) (input : Text) :
    fromLine lexicon 1 input = ofText lexicon input ∧
    (∀ tokens, (fromLine lexicon line input).toTokens = .ok tokens → ∃ stretches last body,
      tokens = body ++ [⟨.endOfInput, [], .behind line input⟩] ∧
        Divides lexicon line [] input stretches last body) ∧
    ∀ calls, (Lexer.ofText lexicon line input).read calls =
      (fromLine lexicon line input).first (calls.count .next) := by
  refine ⟨rfl, fun tokens returned => ?_, fun calls => ?_⟩
  · rw [fromLine, ← Position.behind_nil, toTokens] at returned
    split at returned
    next pos finished =>
      obtain ⟨rfl, stretches, last, divides⟩ := scan_divides lexicon line [] input finished
      exact ⟨stretches, last, _, (Except.ok.inj returned).symm, divides⟩
    next => cases returned
  · exact Lexer.read_follows (.unread rfl rfl) calls

/-- A comment, a text over two lines with an escape in it, and a line number that overflows. -/
private def note : Text := "(a ; b\n \"c\\\"\n\" )"

theorem TokenStream.fromLine_lossless_note :
    (fromLine .sexpr 4294967295 note).toTokens = .ok [⟨.leftParen, "(", ⟨4294967295, 1⟩⟩,
      ⟨.symbol, "a", ⟨4294967295, 2⟩⟩, ⟨.string, "c\"\n", ⟨0, 2⟩⟩, ⟨.rightParen, ")", ⟨1, 3⟩⟩,
      ⟨.endOfInput, [], ⟨1, 4⟩⟩] ∧
    (∃ stretches last body, Divides .sexpr 4294967295 [] note stretches last body) ∧
    (Lexer.ofText .sexpr 4294967295 note).read [.peek, .next, .peek, .peek, .next, .peek] =
      [⟨.leftParen, "(", ⟨4294967295, 1⟩⟩, ⟨.symbol, "a", ⟨4294967295, 2⟩⟩] := by
  obtain ⟨-, divides, reads⟩ := fromLine_lossless .sexpr 4294967295 note
  refine ⟨rfl, ?_, reads _⟩
  obtain ⟨stretches, last, body, -, divides⟩ := divides _ rfl
  exact ⟨stretches, last, body, divides⟩

end Clausal
