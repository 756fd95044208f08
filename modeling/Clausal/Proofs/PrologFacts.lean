import Clausal.Facts.Prolog
import Clausal.Proofs.LogicProgram
import Clausal.Proofs.Occurrence

/-!
# Facts written as Prolog

A list of facts about declared predicates is written one fact to a line and read back. A constant may
be any text, integer, truth value, null or finite number, and it keeps its kind: the text `true` is
quoted, the truth value is not. Predicates are written in lower case and get their declared case back,
provided that no two of them have one lower case form.

The reader knows a predicate by a bare word only. A predicate with another lower case form is written
between quotes, and the facts up to it are read before the quoted name is refused.

Main result: `ofProlog_toProlog`.
-/

namespace Clausal

/-! ### Lexemes of Prolog -/

namespace Text

/-- A small letter, then letters, digits and underscores. -/
def IsPlainName (t : Text) : Prop :=
  ∃ b rest, t = b :: rest ∧ Byte.isLower b = true ∧ ∀ c ∈ rest, Byte.isWord c = true

theorem isWord_of_isLower {b : UInt8} (small : Byte.isLower b = true) : Byte.isWord b = true := by
  simp only [Byte.isWord, Byte.isAlnum, Byte.isAlpha, small, Bool.or_true, Bool.true_or]

theorem isLowerIdentifier_iff (t : Text) : isLowerIdentifier t = true ↔ t.IsPlainName := by
  cases t with
  | nil => simp [isLowerIdentifier, IsPlainName]
  | cons b rest =>
    constructor
    · intro identifier
      rw [isLowerIdentifier, Bool.and_eq_true, List.all_cons, Bool.and_eq_true,
        List.all_eq_true] at identifier
      exact ⟨b, rest, rfl, identifier.1, identifier.2.2⟩
    · rintro ⟨_, _, ⟨⟩, small, words⟩
      rw [isLowerIdentifier, Bool.and_eq_true, List.all_cons, Bool.and_eq_true, List.all_eq_true]
      exact ⟨small, isWord_of_isLower small, words⟩

theorem atom_plain {t : Text} (plain : t.IsPlainName) : atom t = t := by
  rw [atom, if_pos ((isLowerIdentifier_iff t).mpr plain)]

theorem atom_quoted {t : Text} (notPlain : ¬ t.IsPlainName) : atom t = singleQuoted t := by
  rw [atom, if_neg (mt (isLowerIdentifier_iff t).mp notPlain)]

end Text

namespace Lexeme

open Text (IsPlainName StopsAt)

theorem begins_word {t rest : Text} (isName : t.IsPlainName) (stops : StopsAt Byte.isWord rest) :
    Begins .prolog t rest .symbol t := by
  obtain ⟨b, more, rfl, small, words⟩ := isName
  have letter : Byte.isAlpha b = true := by rw [Byte.isAlpha, small, Bool.or_true]
  have other (c : UInt8) (mark : Byte.isLower c = false) : b ≠ c := by
    rintro rfl
    exact absurd small (by rw [mark]; decide)
  have notUpper : Byte.isUpper b = false := by
    rw [Byte.isLower_iff] at small
    rw [← Bool.not_eq_true, Byte.isUpper_iff]
    omega
  refine ⟨⟨b, more, rfl, Byte.isSpace_of_isAlpha letter, other _ (by decide)⟩, ?_⟩
  have inside : ∀ c ∈ b :: more, Byte.isWord c = true :=
    List.forall_mem_cons.mpr ⟨Text.isWord_of_isLower small, words⟩
  have taken := Text.takeWhile_run Byte.isWord (b :: more) rest inside stops
  have left := Text.dropWhile_run Byte.isWord (b :: more) rest inside stops
  have notNumber := startsNumber_letter b (more ++ rest) letter
  rw [List.cons_append] at taken left
  -- A small letter is none of the marks that the lexicon looks for first.
  simp only [List.cons_append, next, punctuation?, other (ascii '(') (by decide),
    other (ascii ')') (by decide), other (ascii '[') (by decide), other (ascii ']') (by decide),
    other (ascii ',') (by decide), other (ascii ':') (by decide), other (ascii '.') (by decide),
    other (ascii '\'') (by decide), other (ascii '"') (by decide), notNumber, letter, word, taken,
    left, List.head?_cons, Option.map_some, Option.getD_some, notUpper,
    beq_eq_false_iff_ne.mpr (other (ascii '_') (by decide))]
  simp [plain]

theorem begins_numeral (f : Numeral.Form) {rest : Text} (ends : StopsAt Byte.continuesNumeral rest) :
    Begins .prolog f.text rest f.kind f.text := by
  obtain ⟨b, more, starts, first, visible⟩ := f.text_cons
  have other (c : UInt8) (mark : (Byte.isDigit c || c == ascii '-') = false) : b ≠ c := by
    rintro rfl
    exact absurd first (by rw [mark]; decide)
  refine ⟨⟨b, more, starts, visible, other _ (by decide)⟩, ?_⟩
  have number := f.number_text rest ends
  have starting := f.startsNumber_text rest
  rw [starts, List.cons_append] at number starting
  rw [starts, List.cons_append]
  simp only [next, punctuation?, other (ascii '(') (by decide), other (ascii ')') (by decide),
    other (ascii '[') (by decide), other (ascii ']') (by decide), other (ascii ',') (by decide),
    other (ascii ':') (by decide), other (ascii '.') (by decide), other (ascii '\'') (by decide),
    other (ascii '"') (by decide), starting, number]
  simp [plain]

/-- Punctuation of one byte, whatever follows it. -/
theorem begins_mark (b : UInt8) (kind : TokenKind) (rest : Text)
    (mark : ∀ rest, punctuation? .prolog (b :: rest) = some (plain kind [b] rest))
    (visible : Byte.isSpace b = false) (notComment : b ≠ Lexicon.prolog.comment) :
    Begins .prolog [b] rest kind [b] := by
  refine ⟨⟨b, [], rfl, visible, notComment⟩, ?_⟩
  rw [List.singleton_append, next, mark rest]
  rfl

end Lexeme

/-! ### Reading tokens -/

namespace Facts

open Lexeme (Begins)
open Text (StopsAt)

/-- Reads the rest of a document, from a position and a state of reading. -/
def readFrom (r : Option Registry) (pos : Position) (reading : Reading) (input : Text) :
    Except Error (List Sentence) := do
  let stream := TokenStream.scan .prolog pos 0 input
  let reading ← Reading.run r stream.tokens reading
  reading.finish r stream.ending

variable (r : Option Registry)

theorem readFrom_blank (pos : Position) (reading : Reading) (b : UInt8) (rest : Text)
    (blank : Byte.isSpace b = true) :
    readFrom r pos reading (b :: rest) = readFrom r (pos.after b) reading rest := by
  rw [readFrom, TokenStream.scan_blank .prolog pos b rest blank]
  rfl

/-- One lexeme is one step of reading. -/
theorem readFrom_lexeme (pos : Position) (reading : Reading) {taken rest text : Text}
    {kind : TokenKind} (begins : Begins .prolog taken rest kind text) :
    readFrom r pos reading (taken ++ rest) =
      (reading.step r ⟨kind, text, pos⟩ >>= fun reading =>
        readFrom r (pos.afterText taken) reading rest) := by
  simp only [readFrom, TokenStream.scan_lexeme pos begins, TokenStream.push, Reading.run]
  cases reading.step r ⟨kind, text, pos⟩ <;> rfl

theorem readFrom_step (pos : Position) (reading next : Reading) {taken rest text : Text}
    {kind : TokenKind} (begins : Begins .prolog taken rest kind text)
    (step : reading.step r ⟨kind, text, pos⟩ = .ok next) :
    readFrom r pos reading (taken ++ rest) = readFrom r (pos.afterText taken) next rest := by
  rw [readFrom_lexeme r pos reading begins, step]
  rfl

/-! ### Constants -/

/-- What follows a constant in a list of arguments. -/
def Separated (rest : Text) : Prop := ∀ b ∈ rest.head?, b = ascii ',' ∨ b = ascii ')'

theorem Separated.stops {rest : Text} (separated : Separated rest) (p : UInt8 → Bool)
    (comma : p (ascii ',') = false) (close : p (ascii ')') = false) : StopsAt p rest := by
  intro b first
  rcases separated b first with rfl | rfl
  · exact comma
  · exact close

/-- A text that is no reserved word is read as a text. -/
theorem wordValue_string {t : Text} (notReserved : t ∉ Prolog.reserved) :
    wordValue t = .string t := by
  simp only [Prolog.reserved, List.mem_cons, List.not_mem_nil, or_false, not_or] at notReserved
  obtain ⟨notTrue, notFalse, notNull⟩ := notReserved
  rw [wordValue, if_neg notTrue, if_neg notFalse, if_neg notNull]

/-- A constant is written as one lexeme, which stands for it. -/
theorem constant_begins (v : Value) (finite : v.isFinite = true) {rest : Text}
    (separated : Separated rest) : ∃ kind text,
      Begins .prolog (Prolog.constant v) rest kind text ∧
        ∀ pos, constantOf ⟨kind, text, pos⟩ = .ok v := by
  have word {t : Text} (isName : t.IsPlainName) : Begins .prolog t rest .symbol t :=
    Lexeme.begins_word isName (separated.stops Byte.isWord (by decide) (by decide))
  have numeral (f : Numeral.Form) : Begins .prolog f.text rest f.kind f.text :=
    Lexeme.begins_numeral f (separated.stops Byte.continuesNumeral (by decide) (by decide))
  cases v with
  | null =>
    exact ⟨.symbol, "null", word ((Text.isLowerIdentifier_iff _).mp (by decide)), fun _ => rfl⟩
  | bool b =>
    refine ⟨.symbol, Value.boolText b, word ((Text.isLowerIdentifier_iff _).mp ?_), fun _ => ?_⟩
    · cases b <;> decide
    · cases b <;> rfl
  | int n =>
    obtain ⟨f, written, integer, reads⟩ := Value.intText_form n
    have begins := numeral f
    rw [← written, integer] at begins
    refine ⟨.integer, Value.intText n, begins, ?_⟩
    intro pos
    simp only [constantOf, Numeral.integerAt, reads]
    rfl
  | float x =>
    obtain ⟨f, written, isFloat, reads⟩ := x.text_form finite
    have begins := numeral f
    have read := f.float?_text
    rw [← written, isFloat] at begins
    rw [← written, reads] at read
    have isFinite : x.isFinite = true := finite
    refine ⟨.float, x.text, begins, ?_⟩
    intro pos
    simp only [constantOf, Numeral.floatAt, read, Numeral.finiteAt, isFinite]
    rfl
  | string t =>
    have quoted := Lexeme.begins_quoted .quotedAtom t rest
    rw [Prolog.constant]
    by_cases isReserved : t ∈ Prolog.reserved
    · rw [if_pos (List.contains_iff_mem.mpr isReserved)]
      exact ⟨.quotedAtom, t, quoted, fun _ => rfl⟩
    rw [if_neg (mt List.contains_iff_mem.mp isReserved)]
    by_cases isName : t.IsPlainName
    · rw [Text.atom_plain isName]
      refine ⟨.symbol, t, word isName, fun pos => ?_⟩
      rw [constantOf, wordValue_string isReserved]
    · rw [Text.atom_quoted isName]
      exact ⟨.quotedAtom, t, quoted, fun _ => rfl⟩

/-! ### Arguments -/

/-- The stages at which an argument comes next: after the bracket and after a comma. -/
inductive Stage.Awaits (name : Text) : List Sentence → Stage → Prop where
  | opened : Awaits name [] (.opened name)
  | comma (args : List Sentence) : Awaits name args (.comma name args)

/-- Where an argument comes next, a constant is taken as one. -/
theorem step_argument {name : Text} {args facts : List Sentence} {stage : Stage} {token : Token}
    {v : Value} (awaits : stage.Awaits name args) (reads : constantOf token = .ok v) :
    Reading.step r ⟨facts, stage⟩ token = .ok ⟨facts, .argument name (.const v :: args) token⟩ := by
  cases awaits with
  | opened =>
    have notClose : token.kind ≠ .rightParen := by
      intro isClose
      rw [constantOf, isClose] at reads
      cases reads
    simp only [Reading.step, notClose, if_false, Reading.addArgument, reads]
    rfl
  | comma =>
    simp only [Reading.step, Reading.addArgument, reads]
    rfl

theorem readFrom_comma (pos : Position) (facts args : List Sentence) (name : Text) (last : Token)
    (rest : Text) : ∃ after,
    readFrom r pos ⟨facts, .argument name args last⟩ (Text.ofString ", " ++ rest) =
      readFrom r after ⟨facts, .comma name args⟩ rest := by
  have begins := Lexeme.begins_mark (ascii ',') .comma (ascii ' ' :: rest) (fun _ => rfl) (by decide)
    (by decide)
  have read := readFrom_step r pos ⟨facts, .argument name args last⟩ ⟨facts, .comma name args⟩
    begins rfl
  exact ⟨_, read.trans (readFrom_blank r _ _ (ascii ' ') rest (by decide))⟩

theorem readFrom_close (pos : Position) (facts args : List Sentence) (name : Text) (last : Token)
    (rest : Text) : ∃ after,
    readFrom r pos ⟨facts, .argument name args last⟩ (Text.ofString ")" ++ rest) =
      readFrom r after ⟨facts, .complete name args⟩ rest := by
  have begins := Lexeme.begins_mark (ascii ')') .rightParen rest (fun _ => rfl) (by decide)
    (by decide)
  exact ⟨_, readFrom_step r pos _ ⟨facts, .complete name args⟩ begins rfl⟩

/-- Constants with commas between them are read one after another, up to the closing bracket. -/
theorem readFrom_arguments (facts : List Sentence) (name rest : Text) (v : Value) (vs : List Value)
    (finite : ∀ w ∈ v :: vs, w.isFinite = true) (pos : Position) (args : List Sentence)
    (stage : Stage) (awaits : stage.Awaits name args) : ∃ after,
      readFrom r pos ⟨facts, stage⟩
          (Text.join ", " ((v :: vs).map Prolog.constant) ++ (Text.ofString ")" ++ rest)) =
        readFrom r after ⟨facts, .complete name (((v :: vs).map Sentence.const).reverse ++ args)⟩
          rest := by
  -- The arguments read so far are collected with the last one first.
  induction vs generalizing v pos args stage with
  | nil =>
    have separated : Separated (Text.ofString ")" ++ rest) := fun b first =>
      .inr (Option.some.inj first).symm
    obtain ⟨kind, text, begins, reads⟩ := constant_begins v (finite v List.mem_cons_self) separated
    obtain ⟨after, closed⟩ := readFrom_close r (pos.afterText (Prolog.constant v)) facts
      (.const v :: args) name ⟨kind, text, pos⟩ rest
    refine ⟨after, ?_⟩
    rw [List.map_singleton, Text.join, List.intercalate_singleton,
      readFrom_step r pos _ _ begins (step_argument r awaits (reads pos)), closed]
    rfl
  | cons w vs ih =>
    rw [List.forall_mem_cons] at finite
    have separated (more : Text) : Separated (Text.ofString ", " ++ more) := fun b first =>
      .inl (Option.some.inj first).symm
    obtain ⟨kind, text, begins, reads⟩ := constant_begins v finite.1
      (separated (Text.join ", " ((w :: vs).map Prolog.constant) ++ (Text.ofString ")" ++ rest)))
    obtain ⟨between, continued⟩ := readFrom_comma r (pos.afterText (Prolog.constant v)) facts
      (.const v :: args) name ⟨kind, text, pos⟩
      (Text.join ", " ((w :: vs).map Prolog.constant) ++ (Text.ofString ")" ++ rest))
    obtain ⟨after, others⟩ := ih w finite.2 between (.const v :: args) _ (.comma _)
    refine ⟨after, ?_⟩
    have joined : Text.join ", " ((v :: w :: vs).map Prolog.constant) = Prolog.constant v ++
        (Text.ofString ", " ++ Text.join ", " ((w :: vs).map Prolog.constant)) := by
      rw [List.map_cons, List.map_cons, Text.join, List.intercalate_cons_cons, List.append_assoc]
      rfl
    have collected : ((v :: w :: vs).map Sentence.const).reverse ++ args =
        ((w :: vs).map Sentence.const).reverse ++ .const v :: args := by
      simp
    rw [joined, List.append_assoc, List.append_assoc,
      readFrom_step r pos _ _ begins (step_argument r awaits (reads pos)), continued, others,
      collected]

/-- The arguments between brackets, or nothing if there are none. -/
def argumentList : List Text → Text
  | [] => []
  | first :: others => "(" ++ Text.join ", " (first :: others) ++ ")"

theorem readFrom_dot (pos : Position) (reading next : Reading) (rest : Text)
    (step : ∀ pos, reading.step r ⟨.dot, ".", pos⟩ = .ok next) : ∃ after,
      readFrom r pos reading (Text.ofString ".\n" ++ rest) = readFrom r after next rest := by
  have begins := Lexeme.begins_mark (ascii '.') .dot (ascii '\n' :: rest) (fun _ => rfl) (by decide)
    (by decide)
  have read := readFrom_step r pos reading next begins (step pos)
  exact ⟨_, read.trans (readFrom_blank r _ _ (ascii '\n') rest (by decide))⟩

/-- A bare name with its arguments and a full stop is read as one fact, if it is accepted. -/
theorem readFrom_line (pos : Position) (facts : List Sentence) {name : Text} (vs : List Value)
    (rest : Text) (isName : name.IsPlainName) (finite : ∀ v ∈ vs, v.isFinite = true) {next : Reading}
    (closes : ∀ stage, Reading.close r name (vs.map Sentence.const).reverse ⟨facts, stage⟩ =
      .ok next) : ∃ after,
      readFrom r pos ⟨facts, .between⟩
          (name ++ (argumentList (vs.map Prolog.constant) ++ (Text.ofString ".\n" ++ rest))) =
        readFrom r after next rest := by
  cases vs with
  | nil =>
    have stops : StopsAt Byte.isWord (Text.ofString ".\n" ++ rest) := by
      intro b first
      obtain rfl := Option.some.inj first
      decide
    obtain ⟨after, ended⟩ := readFrom_dot r (pos.afterText name) ⟨facts, .predicate name⟩ next rest
      fun _ => closes _
    refine ⟨after, ?_⟩
    rw [List.map_nil, argumentList, List.nil_append,
      readFrom_step r pos _ ⟨facts, .predicate name⟩ (Lexeme.begins_word isName stops) rfl, ended]
  | cons v vs =>
    have stops (more : Text) : StopsAt Byte.isWord (Text.ofString "(" ++ more) := by
      intro b first
      obtain rfl := Option.some.inj first
      decide
    have bracket (more : Text) := Lexeme.begins_mark (ascii '(') .leftParen more (fun _ => rfl)
      (by decide) (by decide)
    obtain ⟨between, arguments⟩ := readFrom_arguments r facts name (Text.ofString ".\n" ++ rest) v vs
      finite ((pos.afterText name).afterText [ascii '(']) [] (.opened name) .opened
    obtain ⟨after, ended⟩ := readFrom_dot r between
      ⟨facts, .complete name (((v :: vs).map Sentence.const).reverse ++ [])⟩ next rest
      (by rw [List.append_nil]; exact fun _ => closes _)
    refine ⟨after, ?_⟩
    rw [List.map_cons, argumentList, ← List.map_cons, List.append_assoc, List.append_assoc,
      readFrom_step r pos _ ⟨facts, .predicate name⟩ (Lexeme.begins_word isName (stops _)) rfl]
    refine (readFrom_step r _ _ ⟨facts, .opened name⟩ (bracket _) rfl).trans ?_
    rw [arguments, ended]

end Facts

/-! ### Facts about declared predicates -/

/-- No two names of declared predicates have one lower case form. -/
def Registry.CaseApart (r : Registry) : Prop :=
  ∀ p ∈ r.predicates, ∀ q ∈ r.predicates, p.name.toLower = q.name.toLower → p.name = q.name

instance (r : Registry) : Decidable r.CaseApart :=
  inferInstanceAs (Decidable (∀ p ∈ r.predicates, ∀ q ∈ r.predicates, _ → _))

/-- A fact about a declared predicate: constants in its places, with finite numbers only. What is
written with an infix sign is no such fact. -/
structure Registry.Fact (r : Registry) where
  predicate : Predicate
  values : List Value
  declared : r.predicate? predicate.name = some predicate
  arity : values.length = predicate.arity
  finite : ∀ v ∈ values, v.isFinite = true
  notInfix : ¬ (isBuiltin predicate.name = true ∧ values.length = 2)

namespace Registry.Fact

variable {r : Registry}

def sentence (f : r.Fact) : Sentence := .term f.predicate.name (f.values.map .const)

def name (f : r.Fact) : Text := f.predicate.name.toLower

/-- A fact as it is written, without the full stop. -/
def text (f : r.Fact) : Text :=
  Text.atom f.name ++ Facts.argumentList (f.values.map Prolog.constant)

end Registry.Fact

theorem Operator.lookup_prologSigns {p : Text} (notBuiltin : isBuiltin p = false) :
    prologSigns.lookup p = none := by
  rw [List.lookup_eq_none_iff]
  simp only [isBuiltin, isComparison, isArithmetic, comparisons, arithmetic, List.contains_cons,
    List.contains_nil, Bool.or_false, Bool.or_eq_false_iff] at notBuiltin
  simp only [prologSigns, List.forall_mem_cons, bne]
  grind

namespace Prolog

theorem argument_constants (vs : List Value) : arguments (vs.map .const) = .ok (vs.map constant) := by
  induction vs with
  | nil => rfl
  | cons v vs ih =>
    rw [List.map_cons, arguments, ih]
    rfl

/-- Predicates without an infix sign are followed by their arguments in brackets. -/
theorem applied_list (nested : Bool) (p : Text) (args : List Text)
    (notInfix : ¬ (isBuiltin p = true ∧ args.length = 2)) :
    applied nested p args = Text.atom p.toLower ++ Facts.argumentList args := by
  cases args with
  | nil =>
    rw [Facts.argumentList, List.append_nil]
    cases found : Operator.prologSigns.lookup p <;> simp only [applied, found]
  | cons a args =>
    have prefixed : Operator.prologSigns.lookup p = none ∨ (a :: args).length ≠ 2 := by
      by_cases builtin : isBuiltin p = true
      · exact .inr fun pair => notInfix ⟨builtin, pair⟩
      · exact .inl (Operator.lookup_prologSigns (Bool.eq_false_iff.mpr builtin))
    rw [applied_ordinary nested p (a :: args) (List.cons_ne_nil a args) prefixed]
    simp only [Facts.argumentList, List.append_assoc]

theorem literal_fact {r : Registry} (f : r.Fact) : literal f.sentence = .ok f.text := by
  have notInfix : ¬ (isBuiltin f.predicate.name = true ∧ (f.values.map constant).length = 2) := by
    rw [List.length_map]
    exact f.notInfix
  rw [Registry.Fact.sentence, literal, argument_constants, Registry.Fact.text, Registry.Fact.name,
    ← applied_list false f.predicate.name _ notInfix]
  rfl

end Prolog

/-! ### Reading facts back -/

theorem Text.toLower_toLower (t : Text) : t.toLower.toLower = t.toLower := by
  rw [toLower, toLower, List.map_map]
  exact List.map_congr_left fun b _ => Byte.toLower_of_not_isUpper (Byte.isUpper_toLower b)

namespace Facts

/-- Facts in Prolog notation, one to a line. -/
def toProlog (facts : List Sentence) : Except TargetFault Text := do
  return (← Prolog.literals facts).flatMap fun literal => literal ++ ".\n"

variable {r : Registry}

def line (f : r.Fact) : Text := f.text ++ ".\n"

theorem toProlog_facts (facts : List r.Fact) :
    toProlog (facts.map (·.sentence)) = .ok (facts.flatMap line) := by
  have literals : Prolog.literals (facts.map (·.sentence)) = .ok (facts.map (·.text)) := by
    rw [Prolog.literals_eq]
    induction facts with
    | nil => rfl
    | cons f facts ih =>
      rw [List.map_cons, List.mapM_cons, Prolog.literal_fact, ih]
      rfl
  rw [toProlog, literals]
  exact congrArg Except.ok (List.flatMap_map ..)

/-- A declared predicate is found under its lower case form. -/
theorem declaredName_toLower (apart : r.CaseApart) {p : Predicate} (declared : p ∈ r.predicates) :
    declaredName (some r) p.name.toLower = p.name := by
  rw [declaredName]
  by_cases same : (r.predicate? p.name.toLower).isSome = true
  · -- Some predicate is declared in lower case, and it can only be this one.
    obtain ⟨q, found⟩ := Option.isSome_iff_exists.mp same
    have isName : q.name = p.name.toLower := by simpa using List.find?_some found
    have lowered : q.name.toLower = p.name.toLower := by rw [isName, Text.toLower_toLower]
    rw [if_pos same, ← isName]
    exact apart q (List.mem_of_find?_eq_some found) p declared lowered
  · rw [if_neg same]
    cases found : r.predicates.find? fun q => q.name.toLower = p.name.toLower with
    | none =>
      have different := List.find?_eq_none.mp found p declared
      exact absurd (decide_eq_true rfl) different
    | some q =>
      have lowered : q.name.toLower = p.name.toLower := by simpa using List.find?_some found
      exact apart q (List.mem_of_find?_eq_some found) p declared lowered

/-- A fact that was read is completed under the declared spelling of its predicate. -/
theorem close_fact (apart : r.CaseApart) (f : r.Fact) (facts : List Sentence) (stage : Stage) :
    Reading.close (some r) f.name (f.values.map Sentence.const).reverse ⟨facts, stage⟩ =
      .ok ⟨f.sentence :: facts, .between⟩ := by
  have named : declaredName (some r) f.name = f.predicate.name :=
    declaredName_toLower apart (List.mem_of_find?_eq_some f.declared)
  have accepted : r.checkArity f.sentence = .ok () := by
    rw [Registry.Fact.sentence, Registry.checkArity, then_ok_iff, Registry.checkTerm_ok_iff,
      Registry.checkArities_ok_iff]
    constructor
    · intro declared found
      rw [f.declared, Option.some.injEq] at found
      rw [List.length_map, f.arity, found]
    · intro s member
      obtain ⟨v, -, rfl⟩ := List.mem_map.mp member
      rfl
  rw [Registry.Fact.sentence] at accepted
  simp only [Reading.close, named, List.reverse_reverse, Registry.checkArity?, accepted]
  rfl

/-- A fact with a plain name is read as one fact. -/
theorem readFrom_fact (apart : r.CaseApart) (f : r.Fact) (isName : f.name.IsPlainName)
    (pos : Position) (facts : List Sentence) (rest : Text) : ∃ after,
      readFrom (some r) pos ⟨facts, .between⟩ (f.text ++ Text.ofString ".\n" ++ rest) =
        readFrom (some r) after ⟨f.sentence :: facts, .between⟩ rest := by
  rw [Registry.Fact.text, Text.atom_plain isName, List.append_assoc, List.append_assoc]
  exact readFrom_line (some r) pos facts f.values rest isName f.finite (close_fact apart f facts)

/-- Any other fact is refused at its name. -/
theorem readFrom_quoted (f : r.Fact) (notName : ¬ f.name.IsPlainName) (pos : Position)
    (facts : List Sentence) (rest : Text) :
    readFrom (some r) pos ⟨facts, .between⟩ (f.text ++ rest) =
      .error (.malformed pos (.unexpectedToken .quotedAtom)) := by
  rw [Registry.Fact.text, Text.atom_quoted notName, List.append_assoc, Text.singleQuoted,
    readFrom_lexeme (some r) pos _ (Lexeme.begins_quoted .quotedAtom f.name _)]
  rfl

/-- Facts are read one after another, line by line. -/
theorem readFrom_lines (apart : r.CaseApart) (facts : List r.Fact)
    (names : ∀ f ∈ facts, f.name.IsPlainName) (pos : Position) (before : List Sentence) :
    readFrom (some r) pos ⟨before, .between⟩ (facts.flatMap line) =
      .ok (before.reverse ++ facts.map (·.sentence)) := by
  induction facts generalizing pos before with
  | nil =>
    rw [List.map_nil, List.append_nil]
    rfl
  | cons f facts ih =>
    rw [List.forall_mem_cons] at names
    obtain ⟨after, read⟩ := readFrom_fact apart f names.1 pos before (facts.flatMap line)
    rw [List.flatMap_cons, line, read, ih names.2, List.reverse_cons, List.append_assoc]
    rfl

/-- The first fact whose name has to be quoted ends the reading. -/
theorem readFrom_lines_quoted (apart : r.CaseApart) (facts : List r.Fact)
    (quoted : ∃ f ∈ facts, ¬ f.name.IsPlainName) (pos : Position) (before : List Sentence) :
    ∃ place, readFrom (some r) pos ⟨before, .between⟩ (facts.flatMap line) =
      .error (.malformed place (.unexpectedToken .quotedAtom)) := by
  induction facts generalizing pos before with
  | nil =>
    obtain ⟨f, member, -⟩ := quoted
    exact absurd member List.not_mem_nil
  | cons f facts ih =>
    rw [List.flatMap_cons, line]
    by_cases isName : f.name.IsPlainName
    · have later : ∃ f ∈ facts, ¬ f.name.IsPlainName := by
        obtain ⟨g, member, notName⟩ := quoted
        rcases List.mem_cons.mp member with rfl | member
        · exact absurd isName notName
        · exact ⟨g, member, notName⟩
      obtain ⟨after, read⟩ := readFrom_fact apart f isName pos before (facts.flatMap line)
      rw [read]
      exact ih later after (f.sentence :: before)
    · rw [List.append_assoc]
      exact ⟨pos, readFrom_quoted f isName pos before _⟩

/-- Facts are read back as they were written, with the kinds of their constants and the case of their
predicates, if every lower case form is a plain name. Otherwise the document is refused as
malformed. -/
theorem ofProlog_toProlog (r : Registry) (apart : r.CaseApart) (facts : List r.Fact) :
    ∃ text, toProlog (facts.map (·.sentence)) = .ok text ∧
      ((∀ f ∈ facts, f.name.IsPlainName) → ofProlog (some r) text = .ok (facts.map (·.sentence))) ∧
      ((∃ f ∈ facts, ¬ f.name.IsPlainName) →
        ∃ e, ofProlog (some r) text = .error e ∧ e.kind = .parseError) := by
  refine ⟨facts.flatMap line, toProlog_facts facts, ?_, ?_⟩
  · exact fun names => readFrom_lines apart facts names .start []
  · intro quoted
    obtain ⟨place, refused⟩ := readFrom_lines_quoted apart facts quoted .start []
    exact ⟨_, refused, rfl⟩

/-- A predicate in mixed case, one without arguments, and one whose name is written in quotes. -/
private def stations : Registry where
  types := []
  predicates := [
    ⟨"Sample", [⟨"station", "str"⟩, ⟨"valid", "bool"⟩, ⟨"level", "int"⟩, ⟨"value", "float"⟩,
      ⟨"note", "str"⟩], [], []⟩,
    ⟨"OFFLINE", [], [], []⟩,
    ⟨"next to", [⟨"station", "str"⟩], [], []⟩]

private def sample : stations.Fact where
  predicate := stations.predicates[0]
  values := [.string "true", .bool true, .int (-9223372036854775808), .float ⟨0xC008000000000000⟩,
    .string "it's (a) % test.\n"]
  declared := by decide
  arity := by decide
  finite := by decide
  notInfix := by decide

private def offline : stations.Fact :=
  ⟨stations.predicates[1], [], by decide, by decide, by decide, by decide⟩

private def nextTo : stations.Fact :=
  ⟨stations.predicates[2], [.null], by decide, by decide, by decide, by decide⟩

theorem ofProlog_toProlog_stations :
    stations.CaseApart ∧
      (∃ text, toProlog [sample.sentence, offline.sentence] = .ok text ∧
        ofProlog (some stations) text = .ok [sample.sentence, offline.sentence]) ∧
      (∃ text, toProlog [sample.sentence, nextTo.sentence] = .ok text ∧
        ∃ e, ofProlog (some stations) text = .error e ∧ e.kind = .parseError) := by
  have apart : stations.CaseApart := by decide
  have plain (f : stations.Fact) : f.name.IsPlainName ↔ Text.isLowerIdentifier f.name = true :=
    (Text.isLowerIdentifier_iff f.name).symm
  refine ⟨apart, ?_, ?_⟩
  · obtain ⟨text, written, reads, -⟩ := ofProlog_toProlog stations apart [sample, offline]
    refine ⟨text, written, reads ?_⟩
    simp only [List.forall_mem_cons, plain]
    decide
  · obtain ⟨text, written, -, refuses⟩ := ofProlog_toProlog stations apart [sample, nextTo]
    refine ⟨text, written, refuses ⟨nextTo, by simp, ?_⟩⟩
    rw [plain]
    decide

end Facts

end Clausal
