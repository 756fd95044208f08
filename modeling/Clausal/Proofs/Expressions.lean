import Clausal.Proofs.Lexemes
import Clausal.Proofs.Outcome
import Clausal.SExpr

/-!
# Reading written expressions

How the reader goes through a document from the middle of it. A text expresses something about an
expression if the reader, wherever it starts, takes the text as one expression of which that holds; a
text that lists expressions is read as several items of the innermost open list. Both are composed the
way documents are written.
-/

namespace Clausal

/-- Bytes that have been dealt with only move the position. -/
theorem TokenStream.scan_skip (lexicon : Lexicon) (pos : Position) (t rest : Text) :
    scan lexicon pos t.length (t ++ rest) = scan lexicon (pos.afterText t) 0 rest := by
  induction t generalizing pos with
  | nil => rfl
  | cons b t ih =>
    show scan lexicon (pos.after b) t.length (t ++ rest) = _
    exact ih (pos.after b)

/-- A blank moves the position and nothing else. -/
theorem TokenStream.scan_blank (lexicon : Lexicon) (pos : Position) (b : UInt8) (rest : Text)
    (blank : Byte.isSpace b = true) :
    scan lexicon pos 0 (b :: rest) = scan lexicon (pos.after b) 0 rest := by
  have notComment : b ≠ lexicon.comment := by
    rintro rfl
    cases lexicon <;> exact absurd blank (by decide)
  simp only [scan, notComment, blank, if_false, if_true]

/-- A lexeme is taken as one token. -/
theorem TokenStream.scan_lexeme {lexicon : Lexicon} (pos : Position) {taken rest text : Text}
    {kind : TokenKind} (begins : Lexeme.Begins lexicon taken rest kind text) :
    scan lexicon pos 0 (taken ++ rest) =
      push ⟨kind, text, pos⟩ (scan lexicon (pos.afterText taken) 0 rest) := by
  obtain ⟨⟨b, more, rfl, visible, notComment⟩, next⟩ := begins
  -- The bytes of the lexeme after its first are skipped one by one.
  have skip := scan_skip lexicon (pos.after b) more rest
  rw [List.cons_append] at next ⊢
  simp only [scan, notComment, visible, next, if_false, Bool.false_eq_true, List.length_cons,
    Nat.add_sub_cancel, skip]
  rfl

namespace SExpr

open Lexeme (Begins Delimited Recognized isDelimiter isTag)

/-- Reads the rest of a document, from a position and a state of reading. -/
def readFrom (pos : Position) (reading : Reading) (input : Text) : Except Error SExpr := do
  let stream := TokenStream.scan .sexpr pos 0 input
  let reading ← Reading.run stream.tokens reading
  reading.finish stream.ending

theorem readFrom_blank (pos : Position) (reading : Reading) (b : UInt8) (rest : Text)
    (blank : Byte.isSpace b = true) :
    readFrom pos reading (b :: rest) = readFrom (pos.after b) reading rest := by
  rw [readFrom, TokenStream.scan_blank .sexpr pos b rest blank]
  rfl

theorem readFrom_blanks (pos : Position) (reading : Reading) (blanks rest : Text)
    (blank : ∀ b ∈ blanks, Byte.isSpace b = true) :
    readFrom pos reading (blanks ++ rest) = readFrom (pos.afterText blanks) reading rest := by
  induction blanks generalizing pos with
  | nil => rfl
  | cons b blanks ih =>
    rw [List.forall_mem_cons] at blank
    rw [List.cons_append, readFrom_blank pos reading b _ blank.1, ih _ blank.2]
    rfl

/-- One lexeme is one step of reading. -/
theorem readFrom_lexeme (pos : Position) (reading : Reading) {taken rest text : Text}
    {kind : TokenKind} (begins : Begins .sexpr taken rest kind text) :
    readFrom pos reading (taken ++ rest) =
      (reading.step ⟨kind, text, pos⟩ >>= fun reading =>
        readFrom (pos.afterText taken) reading rest) := by
  unfold readFrom
  simp only [TokenStream.scan_lexeme pos begins, TokenStream.push, Reading.run]
  cases reading.step ⟨kind, text, pos⟩ <;> rfl

/-- A text that is read as one expression of which something holds. -/
def Expresses (d : Text) (P : SExpr → Prop) : Prop :=
  ∀ pos stack rest, Delimited rest → ∃ after e, P e ∧
    readFrom pos (.within stack) (d ++ rest) = readFrom after (Reading.place e stack) rest

/-- A text that is read as items of a list of which something holds. -/
def Reads (d : Text) (P : List SExpr → Prop) : Prop :=
  ∀ pos top stack rest, Delimited rest → ∃ after es, P es ∧
    readFrom pos (.within (top :: stack)) (d ++ rest) =
      readFrom after (.within (⟨top.pos, es.reverse ++ top.items⟩ :: stack)) rest

/-- Items that may follow another one. -/
structure Lists (d : Text) (P : List SExpr → Prop) : Prop where
  delimited : Delimited d
  reads : Reads d P

/-- A list with a first item and further ones. -/
inductive Cons (P : SExpr → Prop) (Q : List SExpr → Prop) : List SExpr → Prop where
  | intro {e : SExpr} {rest : List SExpr} (first : P e) (others : Q rest) : Cons P Q (e :: rest)

theorem Expresses.mono {d : Text} {P Q : SExpr → Prop} (expresses : Expresses d P)
    (stronger : ∀ e, P e → Q e) : Expresses d Q := by
  intro pos stack rest delimited
  obtain ⟨after, e, holds, read⟩ := expresses pos stack rest delimited
  exact ⟨after, e, stronger e holds, read⟩

theorem Expresses.of_eq {d d' : Text} {P : SExpr → Prop} (expresses : Expresses d P)
    (written : d' = d) : Expresses d' P := by
  rw [written]
  exact expresses

theorem delimited_append {d rest : Text} (first : Delimited d) (then_ : Delimited rest) :
    Delimited (d ++ rest) := by
  cases d with
  | nil => exact then_
  | cons b d => exact first

theorem Lists.nil : Lists [] (· = []) := by
  refine ⟨fun b first => absurd first (Option.not_mem_none b), ?_⟩
  intro pos top stack rest _
  exact ⟨pos, [], rfl, rfl⟩

theorem Expresses.first {d d' : Text} {P : SExpr → Prop} {Q : List SExpr → Prop}
    (expresses : Expresses d P) (lists : Lists d' Q) : Reads (d ++ d') (Cons P Q) := by
  intro pos top stack rest delimited
  -- The second text starts with a delimiter, so the first expression ends where its text does.
  obtain ⟨between, e, holds, read⟩ :=
    expresses pos (top :: stack) (d' ++ rest) (delimited_append lists.delimited delimited)
  obtain ⟨after, es, others, readMore⟩ :=
    lists.reads between { top with items := e :: top.items } stack rest delimited
  refine ⟨after, e :: es, ⟨holds, others⟩, ?_⟩
  rw [List.append_assoc, read, Reading.place, readMore, List.reverse_cons, List.append_assoc]
  rfl

/-- Blanks that separate items. -/
def isGap : Text → Bool
  | [] => false
  | b :: rest => (b == ascii ' ' || b == ascii '\n') && rest.all Byte.isSpace

/-- Items are read one after another if blanks separate them. -/
theorem Lists.cons (gap : Text) {d d' : Text} {P : SExpr → Prop} {Q : List SExpr → Prop}
    (separates : isGap gap = true) (expresses : Expresses d P) (lists : Lists d' Q) :
    Lists (gap ++ (d ++ d')) (Cons P Q) := by
  cases gap with
  | nil => exact absurd separates (by decide)
  | cons b gap =>
    obtain ⟨first, others⟩ := Bool.and_eq_true_iff.mp separates
    have blank : ∀ c ∈ b :: gap, Byte.isSpace c = true := by
      refine List.forall_mem_cons.mpr ⟨?_, List.all_eq_true.mp others⟩
      simp only [Bool.or_eq_true, beq_iff_eq] at first
      rcases first with rfl | rfl <;> decide
    -- The gap is what delimits the item before it.
    constructor
    · intro c head
      obtain rfl : b = c := Option.some.inj head
      rw [isDelimiter, first, Bool.true_or]
    · intro pos top stack rest delimited
      obtain ⟨after, es, holds, read⟩ :=
        expresses.first lists (pos.afterText (b :: gap)) top stack rest delimited
      refine ⟨after, es, holds, ?_⟩
      rw [List.append_assoc, readFrom_blanks pos _ (b :: gap) _ blank, read]

/-- An expression after blanks. -/
def Item (d : Text) (P : SExpr → Prop) : Prop :=
  ∃ gap body, d = gap ++ body ∧ isGap gap = true ∧ Expresses body P

theorem Expresses.spaced {d : Text} {P : SExpr → Prop} (expresses : Expresses d P) :
    Item (Text.ofString " " ++ d) P :=
  ⟨" ", d, rfl, by decide, expresses⟩

/-- Members that are written each as an item are read as the list of their expressions. -/
theorem Lists.flatMap {α : Type} {write : α → Text} {P : α → SExpr → Prop} (xs : List α)
    (each : ∀ x ∈ xs, Item (write x) (P x)) : Lists (xs.flatMap write) (List.Forall₂ P xs) := by
  induction xs with
  | nil => exact ⟨Lists.nil.delimited, fun pos top stack rest _ => ⟨pos, [], .nil, rfl⟩⟩
  | cons x xs ih =>
    rw [List.forall_mem_cons] at each
    obtain ⟨⟨gap, body, written, separates, expresses⟩, others⟩ := each
    have items := Lists.cons gap separates expresses (ih others)
    rw [List.flatMap_cons, written, List.append_assoc]
    refine ⟨items.delimited, ?_⟩
    intro pos top stack rest delimited
    obtain ⟨after, es, ⟨first, others⟩, read⟩ := items.reads pos top stack rest delimited
    exact ⟨after, _, .cons first others, read⟩

theorem readFrom_open (pos : Position) (stack : List OpenList) (rest : Text) :
    readFrom pos (.within stack) (ascii '(' :: rest) =
      readFrom (pos.after (ascii '(')) (.within (⟨pos, []⟩ :: stack)) rest := by
  have begins : Begins .sexpr [ascii '('] rest .leftParen [ascii '('] :=
    ⟨⟨ascii '(', [], rfl, by decide, by decide⟩, rfl⟩
  exact readFrom_lexeme pos (.within stack) begins

theorem readFrom_close (pos : Position) (top : OpenList) (stack : List OpenList) (rest : Text) :
    readFrom pos (.within (top :: stack)) (ascii ')' :: rest) =
      readFrom (pos.after (ascii ')')) (Reading.place (.list top.pos top.items.reverse) stack) rest := by
  have begins : Begins .sexpr [ascii ')'] rest .rightParen [ascii ')'] :=
    ⟨⟨ascii ')', [], rfl, by decide, by decide⟩, rfl⟩
  exact readFrom_lexeme pos (.within (top :: stack)) begins

inductive ListOf (P : List SExpr → Prop) : SExpr → Prop where
  | intro (pos : Position) {es : List SExpr} (items : P es) : ListOf P (.list pos es)

/-- Items between brackets are read as a list. -/
theorem Reads.bracketed {d : Text} {P : List SExpr → Prop} (reads : Reads d P) :
    Expresses (ascii '(' :: (d ++ [ascii ')'])) (ListOf P) := by
  intro pos stack rest delimited
  -- The closing bracket delimits the last item.
  have closed : Delimited (ascii ')' :: rest) := by
    intro b first
    obtain rfl : ascii ')' = b := Option.some.inj first
    decide
  obtain ⟨between, es, holds, read⟩ :=
    reads (pos.after (ascii '(')) ⟨pos, []⟩ stack (ascii ')' :: rest) closed
  refine ⟨between.after (ascii ')'), .list pos es, ⟨pos, holds⟩, ?_⟩
  have input : ascii '(' :: (d ++ [ascii ')']) ++ rest = ascii '(' :: (d ++ ascii ')' :: rest) := by
    simp
  rw [input, readFrom_open, read, readFrom_close, List.append_nil, List.reverse_reverse]

inductive AtomOf (value : Atom) : SExpr → Prop where
  | intro (pos : Position) : AtomOf value (.atom pos value)

/-- A token that is no bracket is read as an atom. -/
theorem Reading.step_atom {token : Token} {value : Atom} (notOpen : token.kind ≠ .leftParen)
    (notClose : token.kind ≠ .rightParen) (isAtom : atomOfToken token = .ok value)
    (stack : List OpenList) :
    Reading.step token (.within stack) = .ok (place (.atom token.pos value) stack) := by
  obtain ⟨kind, text, pos⟩ := token
  cases kind with
  | leftParen => exact absurd rfl notOpen
  | rightParen => exact absurd rfl notClose
  | _ =>
    simp only [Reading.step, isAtom]
    rfl

theorem expresses_atom {taken text : Text} {kind : TokenKind} {value : Atom}
    (recognized : Recognized taken kind text) (notOpen : kind ≠ .leftParen)
    (notClose : kind ≠ .rightParen)
    (isAtom : ∀ pos, atomOfToken ⟨kind, text, pos⟩ = .ok value) : Expresses taken (AtomOf value) := by
  intro pos stack rest delimited
  refine ⟨pos.afterText taken, .atom pos value, ⟨pos⟩, ?_⟩
  rw [readFrom_lexeme pos _ (recognized.begins delimited),
    Reading.step_atom notOpen notClose (isAtom pos)]
  rfl

theorem expresses_string (t : Text) : Expresses (Text.doubleQuoted t) (AtomOf (.string t)) :=
  expresses_atom (Lexeme.recognized_string t) (by decide) (by decide) fun _ => rfl

theorem expresses_symbol (t : Text) (tag : isTag t = true) : Expresses t (AtomOf (.symbol t)) :=
  expresses_atom (Lexeme.recognized_tag t tag) (by decide) (by decide) fun _ => rfl

theorem expresses_null : Expresses (Text.ofString "#null") (AtomOf .null) :=
  expresses_atom (Lexeme.recognized_literal "#null" (by decide)) (by decide) (by decide) fun _ => rfl

theorem expresses_bool (b : Bool) :
    Expresses (if b then Text.ofString "#true" else Text.ofString "#false") (AtomOf (.bool b)) := by
  cases b with
  | true =>
    exact expresses_atom (Lexeme.recognized_literal "#true" (by decide)) (by decide) (by decide)
      fun _ => rfl
  | false =>
    exact expresses_atom (Lexeme.recognized_literal "#false" (by decide)) (by decide) (by decide)
      fun _ => rfl

theorem expresses_int (n : Int64) : Expresses (Value.intText n) (AtomOf (.int n)) := by
  obtain ⟨f, written, integer, reads⟩ := Value.intText_form n
  have recognized := Lexeme.recognized_numeral f
  rw [← written, integer] at recognized
  refine expresses_atom recognized (by decide) (by decide) ?_
  intro pos
  simp only [atomOfToken, Numeral.integerAt, reads]
  rfl

/-- A finite number is read back from its shortest text. -/
theorem expresses_float (x : Binary64) (finite : x.isFinite = true) :
    Expresses x.text (AtomOf (.float x)) := by
  obtain ⟨f, written, isFloat, reads⟩ := x.text_form finite
  have recognized := Lexeme.recognized_numeral f
  -- What the lexer takes as a float is handed to the reader of numbers as it stands.
  have read := f.float?_text
  rw [← written, isFloat] at recognized
  rw [← written, reads] at read
  refine expresses_atom recognized (by decide) (by decide) ?_
  intro pos
  simp only [atomOfToken, Numeral.floatAt, read, Numeral.finiteAt, finite]
  rfl

/-- A list that starts with a tag and whose other items have some property. -/
inductive Tagged (tag : Text) (P : List SExpr → Prop) : SExpr → Prop where
  | intro (pos q : Position) {es : List SExpr} (items : P es) :
      Tagged tag P (.list pos (.atom q (.symbol tag) :: es))

theorem Tagged.mono {tag : Text} {P Q : List SExpr → Prop} {e : SExpr} (tagged : Tagged tag P e)
    (stronger : ∀ es, P es → Q es) : Tagged tag Q e := by
  obtain ⟨pos, q, items⟩ := tagged
  exact ⟨pos, q, stronger _ items⟩

/-- A tag and items between brackets. -/
def form (tag d : Text) : Text := ascii '(' :: (tag ++ d ++ [ascii ')'])

/-- A tagged form is read as a list with this tag. -/
theorem Lists.tagged {d : Text} {P : List SExpr → Prop} (tag : Text) (isTag : isTag tag = true)
    (lists : Lists d P) : Expresses (form tag d) (Tagged tag P) := by
  refine ((expresses_symbol tag isTag).first lists).bracketed.mono ?_
  rintro e ⟨pos, ⟨⟨q⟩, items⟩⟩
  exact ⟨pos, q, items⟩

/-- What expresses something is a document by itself. -/
theorem Expresses.parse {d : Text} {P : SExpr → Prop} (expresses : Expresses d P) :
    ∃ e, P e ∧ SExpr.parse d = .ok e := by
  obtain ⟨after, e, holds, read⟩ :=
    expresses .start [] [] (fun b first => absurd first (Option.not_mem_none b))
  rw [List.append_nil] at read
  exact ⟨e, holds, read⟩

end SExpr

end Clausal
