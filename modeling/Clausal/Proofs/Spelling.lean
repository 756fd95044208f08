import Clausal.Proofs.LexedTokens

/-!
# How lexemes spell tokens

Each recognizer takes a first part of its input and leaves the rest as it is. What it takes is the text
of the token it gives, except that the text of a string or of a quoted atom is written between quotes
and with escapes.
-/

namespace Clausal

/-- How a lexeme spells the text of a token: it is that text, or has it between quotes and with
escapes. -/
inductive Spells (lexeme : Text) : TokenKind → Text → Prop where
  | plain {kind : TokenKind} (ordinary : kind ∉ [.string, .quotedAtom, .endOfInput]) :
      Spells lexeme kind lexeme
  | string (raw : Text) (between : lexeme = ascii '"' :: raw ++ [ascii '"']) :
      Spells lexeme .string (Text.unescape raw)
  | quotedAtom (raw : Text) (between : lexeme = ascii '\'' :: raw ++ [ascii '\'']) :
      Spells lexeme .quotedAtom (Text.unescape raw)

namespace Lexeme

/-- Whether a lexeme is the first part of a text, and spells its token if there is no fault. -/
structure Heads (lexeme : Lexeme) (input : Text) : Prop where
  covers : input = lexeme.taken ++ lexeme.rest
  spells : ∀ kind text, lexeme.outcome = .ok (kind, text) →
    lexeme.taken ≠ [] ∧ Spells lexeme.taken kind text

theorem Heads.plain {kind : TokenKind} (ordinary : kind ∉ [.string, .quotedAtom, .endOfInput])
    {taken rest input : Text} (covers : input = taken ++ rest) (nonempty : taken ≠ []) :
    (plain kind taken rest).Heads input := by
  refine ⟨covers, ?_⟩
  rintro _ _ ⟨⟩
  exact ⟨nonempty, .plain ordinary⟩

theorem Heads.error {taken rest input : Text} (covers : input = taken ++ rest)
    (fault : LexicalFault) : Heads ⟨taken, rest, .error fault⟩ input :=
  ⟨covers, fun _ _ found => by cases found⟩

/-- The bytes of a class at the start of a text, of which there is at least one. -/
theorem Heads.run {kind : TokenKind} (ordinary : kind ∉ [.string, .quotedAtom, .endOfInput])
    (p : UInt8 → Bool) {b : UInt8} (first : p b = true) (rest : Text) :
    (Lexeme.plain kind ((b :: rest).takeWhile p) ((b :: rest).dropWhile p)).Heads (b :: rest) :=
  .plain ordinary List.takeWhile_append_dropWhile.symm (by simp [first])

/-- What is found before a quote ends at that quote. -/
theorem beforeQuote?_eq_some {quote : UInt8} {input raw rest : Text}
    (found : beforeQuote? quote input = some (raw, rest)) : input = raw ++ quote :: rest := by
  fun_induction beforeQuote? quote input generalizing raw rest with
  | case1 | case3 => cases found
  | case2 | case4 =>
    cases found
    rfl
  -- An escape is passed over as two bytes, any other byte as one.
  | case5 c more _ ih | case6 b c more _ _ ih =>
    obtain ⟨⟨raw, rest⟩, inner, equal⟩ := Option.map_eq_some_iff.mp found
    cases equal
    rw [ih inner]
    rfl

/-- A quoted text is spelled between its quotes, with escapes. -/
theorem quoted_heads {quote : UInt8} {kind : TokenKind} (fault : LexicalFault) (input : Text)
    (spells : ∀ raw, Spells (quote :: raw ++ [quote]) kind (Text.unescape raw)) :
    (quoted quote kind fault input).Heads (quote :: input) := by
  unfold quoted
  split
  next raw rest found =>
    refine ⟨by simp [beforeQuote?_eq_some found], ?_⟩
    rintro _ _ ⟨⟩
    exact ⟨by simp, spells raw⟩
  next => exact .error (by simp) fault

theorem signPart_append (isSign : UInt8 → Bool) (t : Text) :
    (signPart isSign t).1 ++ (signPart isSign t).2 = t := by
  fun_cases signPart isSign t <;> rfl

theorem fractionPart_append (t : Text) : (fractionPart t).1 ++ (fractionPart t).2 = t := by
  fun_cases fractionPart t
  · simp [List.takeWhile_append_dropWhile]
  · rfl
  · rfl

theorem exponentPart_append (t : Text) : (exponentPart t).1 ++ (exponentPart t).2 = t := by
  fun_cases exponentPart t
  next mark rest sign digits signed taken =>
    have split := signPart_append (fun b => b == ascii '+' || b == ascii '-') rest
    rw [signed] at split
    simp [split, List.takeWhile_append_dropWhile]
  · rfl
  · rfl

theorem number_heads {input : Text} (starts : startsNumber input = true) :
    (number input).Heads input := by
  obtain ⟨negative, d, unsigned, signed, digit⟩ := signPart_startsNumber input starts
  have split := signPart_append (· == ascii '-') input
  rw [signed] at split
  unfold number
  simp only [signed]
  refine .plain (by split <;> decide) ?_ (by simp [digit])
  -- Each part is followed by what the next one is taken from.
  rw [List.append_assoc, exponentPart_append, List.append_assoc, fractionPart_append,
    List.append_assoc, List.takeWhile_append_dropWhile, split]

theorem literal_heads (input : Text) : (literal input).Heads (ascii '#' :: input) := by
  have covers : ascii '#' :: input = (ascii '#' :: input.takeWhile Byte.isAlpha) ++
      input.dropWhile Byte.isAlpha := by simp [List.takeWhile_append_dropWhile]
  unfold literal
  dsimp only
  split
  · exact .plain (by decide) covers (List.cons_ne_nil _ _)
  · exact .error covers _

theorem mark_heads {kind : TokenKind} (ordinary : kind ∉ [.string, .quotedAtom, .endOfInput])
    (b : UInt8) (rest : Text) : (plain kind [b] rest).Heads (b :: rest) :=
  .plain ordinary rfl (List.cons_ne_nil _ _)

theorem neck_heads {b : UInt8} {rest : Text}
    (neck : (b = ascii ':' && rest.head? == some (ascii '-')) = true) :
    (plain .neck ":-" (rest.drop 1)).Heads (b :: rest) := by
  rw [Bool.and_eq_true, decide_eq_true_eq, beq_iff_eq] at neck
  obtain ⟨rfl, follows⟩ := neck
  obtain ⟨tail, rfl⟩ := List.head?_eq_some_iff.mp follows
  exact .plain (by decide) rfl (by decide)

theorem punctuation_heads {lexicon : Lexicon} {input : Text} {found : Lexeme}
    (punctuation : punctuation? lexicon input = some found) : found.Heads input := by
  cases input with
  | nil => cases lexicon <;> cases punctuation
  | cons b rest =>
    cases lexicon with
    | sexpr =>
      simp only [punctuation?] at punctuation
      split_ifs at punctuation <;> cases punctuation <;> exact mark_heads (by decide) b rest
    | prolog =>
      simp only [punctuation?] at punctuation
      split_ifs at punctuation with _ _ _ _ _ neck <;> cases punctuation
      · exact mark_heads (by decide) b rest
      · exact mark_heads (by decide) b rest
      · exact mark_heads (by decide) b rest
      · exact mark_heads (by decide) b rest
      · exact mark_heads (by decide) b rest
      · exact neck_heads neck
      · exact mark_heads (by decide) b rest

/-- Whatever a document goes on with, the next lexeme is its first part. -/
theorem next_heads (lexicon : Lexicon) (b : UInt8) (rest : Text) :
    (next lexicon (b :: rest)).Heads (b :: rest) := by
  unfold next
  split
  next found punctuation => exact punctuation_heads punctuation
  next =>
    dsimp only
    split
    next atom =>
      rw [Bool.and_eq_true, decide_eq_true_eq] at atom
      obtain ⟨rfl, -⟩ := atom
      exact quoted_heads _ rest fun raw => .quotedAtom raw rfl
    split
    next string =>
      subst string
      exact quoted_heads _ rest fun raw => .string raw rfl
    split
    next hash =>
      rw [Bool.and_eq_true, decide_eq_true_eq] at hash
      obtain ⟨rfl, -⟩ := hash
      exact literal_heads rest
    split
    next starts => exact number_heads starts
    split
    · split
      next symbol =>
        rw [Bool.and_eq_true] at symbol
        exact .run (by decide) isSymbolByte symbol.1 rest
      next => exact .error rfl _
    · split
      next name =>
        -- A name may start with fewer bytes than it goes on with.
        have word : Byte.isWord b = true := by
          rw [Byte.isWord, Byte.isAlnum, Bool.or_eq_true, Bool.or_eq_true]
          exact (Bool.or_eq_true_iff.mp name).imp_left .inl
        exact .run (by split <;> decide) Byte.isWord word rest
      next => exact .error rfl _

end Lexeme

end Clausal
