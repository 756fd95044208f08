import Clausal.Proofs.Numerals
import Clausal.Token.Lexer

/-!
# Tokens as the lexer gives them

What is known of the text of a token by its kind: the text of a number is a numeral that is read to
its end, and a literal is one of the words for them. Each recognizer keeps this, so it holds of every
token of a document.
-/

namespace Clausal

/-! ### Parts of a numeral -/

namespace Lexeme

theorem signPart_cases (isSign : UInt8 → Bool) (t : Text) :
    (signPart isSign t).1 = [] ∨ ∃ b, isSign b = true ∧ (signPart isSign t).1 = [b] := by
  cases t with
  | nil => exact .inl rfl
  | cons b rest =>
    by_cases sign : isSign b = true
    · exact .inr ⟨b, sign, by rw [signPart, if_pos sign]⟩
    · exact .inl (by rw [signPart, if_neg sign])

/-- What is taken for an exponent is an exponent of a numeral, or nothing. -/
theorem exponentPart_isExponent (t : Text) :
    ∃ power, Numeral.IsExponent (exponentPart t).1 power := by
  cases t with
  | nil => exact ⟨0, .absent⟩
  | cons mark rest =>
    have signs := signPart_cases (fun b => b == ascii '+' || b == ascii '-') rest
    unfold exponentPart
    dsimp only
    split
    · next taken =>
      simp only [Bool.and_eq_true, Bool.or_eq_true, decide_eq_true_eq, Bool.not_eq_true',
        List.isEmpty_eq_false_iff] at taken
      -- The digits are those after the sign, which is missing, a plus or a minus.
      refine ⟨_, .marked mark _ _ taken.1 ?_ taken.2 (List.all_eq_true.mp List.all_takeWhile)⟩
      rcases signs with none | ⟨b, isSign, one⟩
      · exact .inl none
      · simp only [Bool.or_eq_true, beq_iff_eq] at isSign
        rcases isSign with rfl | rfl
        · exact .inr (.inl one)
        · exact .inr (.inr one)
    · exact ⟨0, .absent⟩

theorem fractionPart_digits (t : Text) : ∃ digits : Text,
    (∀ b ∈ digits, Byte.isDigit b = true) ∧
      (fractionPart t).1 = Numeral.Form.fractionText digits := by
  have none : ∃ digits : Text, (∀ b ∈ digits, Byte.isDigit b = true) ∧
      [] = Numeral.Form.fractionText digits :=
    ⟨[], fun b member => absurd member List.not_mem_nil, rfl⟩
  cases t with
  | nil => exact none
  | cons point rest =>
    by_cases taken : (point = ascii '.' && !(rest.takeWhile Byte.isDigit).isEmpty) = true
    · rw [fractionPart, if_pos taken]
      rw [Bool.and_eq_true, decide_eq_true_eq, Bool.not_eq_true'] at taken
      refine ⟨rest.takeWhile Byte.isDigit, List.all_eq_true.mp List.all_takeWhile, ?_⟩
      rw [Numeral.Form.fractionText, taken.2, taken.1]
      rfl
    · rw [fractionPart, if_neg taken]
      exact none

/-- After the sign, if there is one, a numeral has at least one digit. -/
theorem signPart_startsNumber (input : Text) (starts : startsNumber input = true) :
    ∃ negative d rest, signPart (· == ascii '-') input =
      (Numeral.Form.sign negative, d :: rest) ∧ Byte.isDigit d = true := by
  cases input with
  | nil => exact absurd starts (by decide)
  | cons b rest =>
    by_cases minus : b = ascii '-'
    · subst minus
      cases rest with
      | nil => exact absurd starts (by decide)
      | cons d rest =>
        refine ⟨true, d, rest, rfl, ?_⟩
        simpa [startsNumber, show Byte.isDigit (ascii '-') = false by decide] using starts
    · refine ⟨false, b, rest, by simp [signPart, minus, Numeral.Form.sign], ?_⟩
      cases rest with
      | nil => exact starts
      | cons c rest => simpa [startsNumber, minus] using starts

/-- Where a numeral starts, the lexeme is a numeral. -/
theorem number_written (input : Text) (starts : startsNumber input = true) :
    ∃ (f : Numeral.Written) (rest : Text), number input = plain f.kind f.text rest := by
  obtain ⟨negative, d, unsigned, signed, digit⟩ := signPart_startsNumber input starts
  obtain ⟨fraction, digits, point⟩ := fractionPart_digits ((d :: unsigned).dropWhile Byte.isDigit)
  obtain ⟨power, isExponent⟩ :=
    exponentPart_isExponent (fractionPart ((d :: unsigned).dropWhile Byte.isDigit)).2
  -- Each part is whatever its recognizer has taken.
  let f : Numeral.Written :=
    { negative, whole := (d :: unsigned).takeWhile Byte.isDigit, fraction, exponent := _, power
      whole_ne_nil := by simp [digit]
      whole_digits := List.all_eq_true.mp List.all_takeWhile
      fraction_digits := digits
      exponent_is := isExponent }
  refine ⟨f, (exponentPart (fractionPart ((d :: unsigned).dropWhile Byte.isDigit)).2).2, ?_⟩
  rw [← f.kind_eq]
  unfold number
  simp only [signed, point, List.append_assoc]
  rfl

end Lexeme

/-! ### Tokens -/

/-- What the lexer promises about the tokens of a document. -/
structure Token.Lexed (token : Token) : Prop where
  numeral : token.kind = .integer ∨ token.kind = .float →
    ∃ f : Numeral.Written, f.kind = token.kind ∧ f.text = token.text
  literal : token.kind = .literal → token.text ∈ Lexeme.literals

namespace Lexeme

/-- Whether the token of a lexeme is as promised. -/
def Keeps (lexeme : Lexeme) : Prop :=
  ∀ kind text pos, lexeme.outcome = .ok (kind, text) → Token.Lexed ⟨kind, text, pos⟩

theorem Keeps.error (taken rest : Text) (fault : LexicalFault) :
    Keeps ⟨taken, rest, .error fault⟩ := by
  intro kind text pos found
  cases found

theorem Keeps.ok {kind : TokenKind} (numeral : kind ≠ .integer ∧ kind ≠ .float)
    (literal : kind ≠ .literal) (taken rest text : Text) :
    Keeps ⟨taken, rest, .ok (kind, text)⟩ := by
  intro kind text pos found
  cases found
  exact ⟨fun number => absurd number (not_or.mpr numeral), fun same => absurd same literal⟩

theorem keeps_quoted (quote : UInt8) (fault : LexicalFault) (input : Text) :
    Keeps (quoted quote .string fault input) := by
  unfold quoted
  split
  · exact .ok (by decide) (by decide) _ _ _
  · exact .error _ _ _

theorem keeps_literal (input : Text) : Keeps (literal input) := by
  intro kind text pos found
  unfold literal at found
  dsimp only at found
  split at found
  · next known =>
    cases found
    exact ⟨fun number => absurd number (by simp), fun _ => List.contains_iff_mem.mp known⟩
  · cases found

/-- A number is a numeral in parts, of the kind that its parts call for. -/
theorem keeps_number (input : Text) (starts : startsNumber input = true) :
    Keeps (number input) := by
  obtain ⟨f, rest, number⟩ := number_written input starts
  intro kind text pos found
  rw [number] at found
  cases found
  refine ⟨fun _ => ⟨f, rfl, rfl⟩, fun same => absurd same ?_⟩
  dsimp only [Numeral.Written.kind]
  split <;> decide

/-- Whatever the scanner takes in a document is as promised. -/
theorem keeps_next (input : Text) : Keeps (next .sexpr input) := by
  cases input with
  | nil => exact .ok (by decide) (by decide) _ _ _
  | cons b rest =>
    unfold next
    split
    · next punctuation =>
      simp only [punctuation?] at punctuation
      split_ifs at punctuation <;> cases punctuation <;> exact .ok (by decide) (by decide) _ _ _
    · dsimp only
      -- Only the other lexicon has quoted atoms.
      rw [if_neg (by simp)]
      split
      · exact keeps_quoted _ _ _
      · split
        · exact keeps_literal _
        · split
          · next starts => exact keeps_number _ starts
          · split
            · exact .ok (by decide) (by decide) _ _ _
            · exact .error _ _ _

end Lexeme

/-- Every token of a document is as promised, wherever scanning starts. -/
theorem TokenStream.lexed_of_mem_scan (pos : Position) (skip : Nat) (input : Text) :
    ∀ token ∈ (scan .sexpr pos skip input).tokens, token.Lexed := by
  induction input generalizing pos skip with
  | nil => exact fun token member => absurd member List.not_mem_nil
  | cons b rest ih =>
    -- Bytes of a lexeme, comments and blanks give no token; a lexeme gives one, a fault none.
    unfold scan
    split
    · exact ih _ _
    · split
      · exact ih _ _
      · split
        · exact ih _ _
        · dsimp only
          split
          · next found =>
            exact List.forall_mem_cons.mpr ⟨Lexeme.keeps_next _ _ _ pos found, ih _ _⟩
          · exact fun token member => absurd member List.not_mem_nil

end Clausal
