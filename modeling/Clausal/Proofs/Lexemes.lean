import Clausal.Proofs.Numerals

/-!
# Lexemes of written documents

What the writer puts into a document is recognized as one lexeme, with the text that was written:
quoted texts with any bytes in them, tags, literals and numerals. A lexeme other than a quoted text ends
where a blank or a closing bracket follows.
-/

namespace Clausal

namespace Text

/-- A quote that an escape leaves as it is. -/
structure IsQuote (quote : UInt8) : Prop where
  not_backslash : quote ≠ ascii '\\'
  unescape_self : unescapeByte quote = quote

theorem isQuote_double : IsQuote (ascii '"') := ⟨by decide, by decide⟩

theorem isQuote_single : IsQuote (ascii '\'') := ⟨by decide, by decide⟩

/-- A byte is written as an escape that stands for it, or as itself where that is no risk. -/
theorem escapeByte_cases {quote : UInt8} (isQuote : IsQuote quote) (b : UInt8) :
    (∃ c, escapeByte quote b = [ascii '\\', c] ∧ unescapeByte c = b) ∨
      (escapeByte quote b = [b] ∧ b ≠ ascii '\\' ∧ b ≠ quote) := by
  unfold escapeByte
  split
  -- The bytes with an escape are tried in this order, the quote after all others.
  next equal => exact .inl ⟨ascii '\\', rfl, by rw [equal]; decide⟩
  next notBackslash =>
    split
    next equal => exact .inl ⟨ascii 'n', rfl, by rw [equal]; decide⟩
    split
    next equal => exact .inl ⟨ascii 'r', rfl, by rw [equal]; decide⟩
    split
    next equal => exact .inl ⟨ascii 't', rfl, by rw [equal]; decide⟩
    split
    next equal => exact .inl ⟨ascii 'f', rfl, by rw [equal]; decide⟩
    split
    next equal => exact .inl ⟨ascii 'b', rfl, by rw [equal]; decide⟩
    split
    next equal => exact .inl ⟨b, rfl, by rw [equal]; exact isQuote.unescape_self⟩
    next notQuote => exact .inr ⟨rfl, notBackslash, notQuote⟩

theorem unescape_plain (b : UInt8) (rest : Text) (plain : b ≠ ascii '\\') :
    unescape (b :: rest) = b :: unescape rest := by
  cases rest with
  | nil => rfl
  | cons c rest => rw [unescape, if_neg plain]

/-- Reading escapes undoes writing them, between either kind of quotes. -/
theorem unescape_escape {quote : UInt8} (isQuote : IsQuote quote) (t : Text) :
    unescape (escape quote t) = t := by
  induction t with
  | nil => rfl
  | cons b t ih =>
    have split : escape quote (b :: t) = escapeByte quote b ++ escape quote t := rfl
    rw [split]
    rcases escapeByte_cases isQuote b with ⟨c, written, reads⟩ | ⟨written, plain, -⟩
    · rw [written, List.cons_append, List.cons_append, List.nil_append, unescape, if_pos rfl, reads, ih]
    · rw [written, List.cons_append, List.nil_append, unescape_plain b _ plain, ih]

end Text

namespace Byte

theorem isSpace_of_isAlpha {b : UInt8} (letter : isAlpha b = true) : isSpace b = false := by
  rw [isAlpha, Bool.or_eq_true, isUpper_iff, isLower_iff] at letter
  rw [← Bool.not_eq_true, isSpace_iff]
  omega

theorem isDigit_of_isAlpha {b : UInt8} (letter : isAlpha b = true) : isDigit b = false := by
  rw [isAlpha, Bool.or_eq_true, isUpper_iff, isLower_iff] at letter
  rw [← Bool.not_eq_true, isDigit_iff]
  omega

end Byte

/-- A numeral starts with a digit or a sign. -/
theorem Numeral.Form.text_cons (f : Numeral.Form) : ∃ b more, f.text = b :: more ∧
    (Byte.isDigit b || b == ascii '-') = true ∧ Byte.isSpace b = false := by
  obtain ⟨d, more, starts, digit⟩ := f.magnitudeText_cons
  unfold Numeral.Form.text
  cases f.negative with
  | true => exact ⟨ascii '-', f.magnitudeText, rfl, by decide, by decide⟩
  | false =>
    refine ⟨d, more, starts, by rw [digit]; rfl, ?_⟩
    rw [Byte.isDigit_iff] at digit
    rw [← Bool.not_eq_true, Byte.isSpace_iff]
    omega

namespace Lexeme

theorem beforeQuote?_plain (quote b : UInt8) (rest : Text) (other : b ≠ quote)
    (plain : b ≠ ascii '\\') : beforeQuote? quote (b :: rest) =
      (beforeQuote? quote rest).map fun (raw, after) => (b :: raw, after) := by
  cases rest with
  | nil => simp [beforeQuote?, other]
  | cons c rest => simp [beforeQuote?, other, plain]

/-- The raw text ends at the quote that closes it. -/
theorem beforeQuote?_escape {quote : UInt8} (isQuote : Text.IsQuote quote) (t rest : Text) :
    beforeQuote? quote (Text.escape quote t ++ quote :: rest) =
      some (Text.escape quote t, rest) := by
  induction t with
  | nil => cases rest <;> simp [Text.escape, beforeQuote?]
  | cons b t ih =>
    have split : Text.escape quote (b :: t) = Text.escapeByte quote b ++ Text.escape quote t := rfl
    rw [split, List.append_assoc]
    rcases Text.escapeByte_cases isQuote b with ⟨c, written, -⟩ | ⟨written, plain, other⟩
    -- An escape is two bytes long, so that a quote in it does not end the text.
    · simp [written, beforeQuote?, isQuote.not_backslash.symm, ih]
    · simp [written, beforeQuote?_plain quote b _ other plain, ih]

/-- A quoted text is recognized whatever follows it. -/
theorem quoted_escape {quote : UInt8} (isQuote : Text.IsQuote quote) (kind : TokenKind)
    (fault : LexicalFault) (t rest : Text) :
    quoted quote kind fault (Text.escape quote t ++ quote :: rest) =
      ⟨Text.quoted quote t, rest, .ok (kind, t)⟩ := by
  unfold quoted
  rw [beforeQuote?_escape isQuote t rest]
  simp only [Text.unescape_escape isQuote t, Text.quoted]

/-- A text that starts with a lexeme which is taken as a token. -/
structure Begins (lexicon : Lexicon) (taken rest : Text) (kind : TokenKind) (text : Text) : Prop where
  starts : ∃ b more, taken = b :: more ∧ Byte.isSpace b = false ∧ b ≠ lexicon.comment
  next_eq : next lexicon (taken ++ rest) = ⟨taken, rest, .ok (kind, text)⟩

/-- The quotes of a lexicon, and the kinds of the tokens between them. -/
inductive Quotes : Lexicon → UInt8 → TokenKind → Prop where
  | string (lexicon : Lexicon) : Quotes lexicon (ascii '"') .string
  | quotedAtom : Quotes .prolog (ascii '\'') .quotedAtom

theorem Quotes.isQuote {lexicon : Lexicon} {quote : UInt8} {kind : TokenKind}
    (quotes : Quotes lexicon quote kind) : Text.IsQuote quote := by
  cases quotes with
  | string => exact Text.isQuote_double
  | quotedAtom => exact Text.isQuote_single

/-- A quoted text is taken as one token, whatever bytes it has and whatever follows it. -/
theorem begins_quoted {lexicon : Lexicon} {quote : UInt8} {kind : TokenKind}
    (quotes : Quotes lexicon quote kind) (t rest : Text) :
    Begins lexicon (Text.quoted quote t) rest kind t := by
  have input : Text.quoted quote t ++ rest = quote :: (Text.escape quote t ++ quote :: rest) := by
    simp [Text.quoted]
  have recognized (fault : LexicalFault) := quoted_escape quotes.isQuote kind fault t rest
  cases quotes with
  | string =>
    refine ⟨⟨ascii '"', _, rfl, by decide, by cases lexicon <;> decide⟩, ?_⟩
    rw [input]
    cases lexicon <;> exact recognized .unterminatedString
  | quotedAtom =>
    refine ⟨⟨ascii '\'', _, rfl, by decide, by decide⟩, ?_⟩
    rw [input]
    exact recognized .unterminatedAtom

theorem startsNumber_letter (b : UInt8) (rest : Text) (letter : Byte.isAlpha b = true) :
    startsNumber (b :: rest) = false := by
  have notDigit := Byte.isDigit_of_isAlpha letter
  have notSign : b ≠ ascii '-' := by
    rintro rfl
    exact absurd letter (by decide)
  cases rest with
  | nil => exact notDigit
  | cons c rest => simp [startsNumber, notDigit, notSign]

/-- What follows the lexemes that the writer puts out. -/
def isDelimiter (b : UInt8) : Bool := b == ascii ' ' || b == ascii '\n' || b == ascii ')'

/-- A text that begins with a delimiter, if it is not empty. -/
def Delimited (rest : Text) : Prop := ∀ b ∈ rest.head?, isDelimiter b = true

/-- A delimiter ends every class of bytes that has neither blanks nor a bracket. -/
theorem Delimited.stops {rest : Text} (delimited : Delimited rest) (p : UInt8 → Bool)
    (space : p (ascii ' ') = false) (line : p (ascii '\n') = false) (close : p (ascii ')') = false) :
    Text.StopsAt p rest := by
  intro b first
  have known := delimited b first
  simp only [isDelimiter, Bool.or_eq_true, beq_iff_eq] at known
  rcases known with (rfl | rfl) | rfl
  · exact space
  · exact line
  · exact close

/-- A lexeme that the scanner takes as a token in front of a delimiter. -/
structure Recognized (taken : Text) (kind : TokenKind) (text : Text) : Prop where
  starts : ∃ b more, taken = b :: more ∧ Byte.isSpace b = false ∧ b ≠ Lexicon.sexpr.comment
  next_eq : ∀ rest, Delimited rest →
    next .sexpr (taken ++ rest) = ⟨taken, rest, .ok (kind, text)⟩

theorem Recognized.begins {taken text : Text} {kind : TokenKind}
    (recognized : Recognized taken kind text) {rest : Text} (delimited : Delimited rest) :
    Begins .sexpr taken rest kind text :=
  ⟨recognized.starts, recognized.next_eq rest delimited⟩

theorem recognized_string (t : Text) : Recognized (Text.doubleQuoted t) .string t where
  starts := (begins_quoted (.string .sexpr) t []).starts
  next_eq rest _ := (begins_quoted (.string .sexpr) t rest).next_eq

/-- A tag: a letter, and bytes of a symbol. -/
def isTag : Text → Bool
  | [] => false
  | b :: rest => Byte.isAlpha b && rest.all isSymbolByte

theorem recognized_tag (t : Text) (tag : isTag t = true) : Recognized t .symbol t := by
  cases t with
  | nil => exact absurd tag (by decide)
  | cons b more =>
    obtain ⟨letter, symbols⟩ := Bool.and_eq_true_iff.mp tag
    -- Whatever decides which recognizer is used, a letter is none of the bytes it asks for.
    have other (c : UInt8) (mark : Byte.isAlpha c = false) : b ≠ c := by
      rintro rfl
      exact absurd letter (by rw [mark]; decide)
    have symbol : isSymbolByte b = true := by
      simp [isSymbolByte, Byte.isAlnum, letter]
    refine ⟨⟨b, more, rfl, Byte.isSpace_of_isAlpha letter, other _ (by decide)⟩, ?_⟩
    intro rest delimited
    have stops := delimited.stops isSymbolByte (by decide) (by decide) (by decide)
    have inside : ∀ c ∈ b :: more, isSymbolByte c = true :=
      List.forall_mem_cons.mpr ⟨symbol, List.all_eq_true.mp symbols⟩
    have taken := Text.takeWhile_run isSymbolByte (b :: more) rest inside stops
    have left := Text.dropWhile_run isSymbolByte (b :: more) rest inside stops
    have notNumber := startsNumber_letter b (more ++ rest) letter
    rw [List.cons_append] at taken left
    simp only [List.cons_append, next, punctuation?, other (ascii '(') (by decide),
      other (ascii ')') (by decide), other (ascii '"') (by decide), other (ascii '#') (by decide),
      notNumber, symbol, bne_iff_ne.mpr (other (ascii '.') (by decide)), Lexeme.symbol, taken, left]
    simp [plain]

theorem recognized_literal (t : Text) (known : literals.contains t = true) :
    Recognized t .literal t := by
  -- The three literals are a hash and letters.
  obtain ⟨letters, rfl, all⟩ : ∃ letters, t = ascii '#' :: letters ∧
      ∀ b ∈ letters, Byte.isAlpha b = true := by
    have member := List.contains_iff_mem.mp known
    simp only [literals, List.mem_cons, List.not_mem_nil, or_false] at member
    rcases member with rfl | rfl | rfl
    · exact ⟨"true", rfl, List.all_eq_true.mp (by decide)⟩
    · exact ⟨"false", rfl, List.all_eq_true.mp (by decide)⟩
    · exact ⟨"null", rfl, List.all_eq_true.mp (by decide)⟩
  refine ⟨⟨ascii '#', letters, rfl, by decide, by decide⟩, ?_⟩
  intro rest delimited
  have stops := delimited.stops Byte.isAlpha (by decide) (by decide) (by decide)
  have taken := Text.takeWhile_run Byte.isAlpha letters rest all stops
  have left := Text.dropWhile_run Byte.isAlpha letters rest all stops
  show literal (letters ++ rest) = _
  simp only [literal, taken, left, known, if_true]

/-- A numeral is recognized in front of a delimiter, as an integer or as a float. -/
theorem recognized_numeral (f : Numeral.Form) : Recognized f.text f.kind f.text := by
  obtain ⟨b, more, starts, first, visible⟩ := f.text_cons
  have other (c : UInt8) (mark : (Byte.isDigit c || c == ascii '-') = false) : b ≠ c := by
    rintro rfl
    exact absurd first (by rw [mark]; decide)
  refine ⟨⟨b, more, starts, visible, other _ (by decide)⟩, ?_⟩
  intro rest delimited
  have ends := delimited.stops Byte.continuesNumeral (by decide) (by decide) (by decide)
  have number := f.number_text rest ends
  have starting := f.startsNumber_text rest
  rw [starts, List.cons_append] at number starting
  rw [starts, List.cons_append]
  simp only [next, punctuation?, other (ascii '(') (by decide), other (ascii ')') (by decide),
    other (ascii '"') (by decide), other (ascii '#') (by decide), starting, number]
  simp [plain]

end Lexeme

end Clausal
