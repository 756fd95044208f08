import Clausal.Proofs.Shortest
import Clausal.Token.Lexeme
import Clausal.Value

/-!
# Numerals

A numeral has a sign, digits, digits after a point and an exponent. Written out before a byte that
cannot continue it, it is one lexeme, and it is read as the number it describes. The text of an integer
and of a finite double precision number is such a numeral and is read as the same number.
-/

namespace Clausal

namespace Text

/-- A text that does not go on with a byte of some class. -/
def StopsAt (p : UInt8 → Bool) (rest : Text) : Prop := ∀ b ∈ rest.head?, p b = false

theorem stopsAt_nil (p : UInt8 → Bool) : StopsAt p [] :=
  fun b first => absurd first (Option.not_mem_none b)

/-- A run of some bytes is taken as a whole, up to the first byte of another class. -/
theorem takeWhile_run (p : UInt8 → Bool) (run rest : Text) (inside : ∀ b ∈ run, p b = true)
    (stops : StopsAt p rest) : (run ++ rest).takeWhile p = run := by
  have none : rest.takeWhile p = [] := by
    cases rest with
    | nil => rfl
    | cons b rest => simp [stops b rfl]
  rw [List.takeWhile_append_of_pos inside, none, List.append_nil]

theorem dropWhile_run (p : UInt8 → Bool) (run rest : Text) (inside : ∀ b ∈ run, p b = true)
    (stops : StopsAt p rest) : (run ++ rest).dropWhile p = rest := by
  rw [List.dropWhile_append_of_pos inside]
  cases rest with
  | nil => rfl
  | cons b rest => simp [stops b rfl]

end Text

namespace Byte

theorem isDigit_iff (b : UInt8) : isDigit b = true ↔ 48 ≤ b.toNat ∧ b.toNat ≤ 57 := by
  simp only [isDigit, Bool.and_eq_true, decide_eq_true_eq, UInt8.le_iff_toNat_le]
  rfl

theorem isUpper_iff (b : UInt8) : isUpper b = true ↔ 65 ≤ b.toNat ∧ b.toNat ≤ 90 := by
  simp only [isUpper, Bool.and_eq_true, decide_eq_true_eq, UInt8.le_iff_toNat_le]
  rfl

theorem isLower_iff (b : UInt8) : isLower b = true ↔ 97 ≤ b.toNat ∧ b.toNat ≤ 122 := by
  simp only [isLower, Bool.and_eq_true, decide_eq_true_eq, UInt8.le_iff_toNat_le]
  rfl

theorem isUpper_toLower (b : UInt8) : isUpper (toLower b) = false := by
  by_cases upper : isUpper b = true
  · rw [toLower, if_pos upper, ← Bool.not_eq_true, isUpper_iff, UInt8.toNat_add]
    rw [isUpper_iff] at upper
    have : (32 : UInt8).toNat = 32 := rfl
    omega
  · rw [toLower, if_neg upper]
    exact Bool.eq_false_iff.mpr upper

theorem toLower_of_not_isUpper {b : UInt8} (notUpper : isUpper b = false) : toLower b = b := by
  rw [toLower, notUpper]
  rfl

theorem isSpace_iff (b : UInt8) :
    isSpace b = true ↔ b.toNat = 32 ∨ (9 ≤ b.toNat ∧ b.toNat ≤ 13) := by
  simp only [isSpace, Bool.or_eq_true, Bool.and_eq_true, decide_eq_true_eq, beq_iff_eq,
    UInt8.le_iff_toNat_le, ← UInt8.toNat_inj]
  rfl

theorem ne_sign_of_isDigit {b : UInt8} (digit : isDigit b = true) :
    b ≠ ascii '-' ∧ b ≠ ascii '+' := by
  constructor <;>
  · rintro rfl
    exact absurd digit (by decide)

/-- A byte that may continue a numeral. -/
def continuesNumeral (b : UInt8) : Bool :=
  isDigit b || b == ascii '.' || b == ascii 'e' || b == ascii 'E'

end Byte

namespace Numeral

/-- A numeral in parts. -/
structure Form where
  negative : Bool
  whole : Text
  fraction : Text
  exponent : Option Int
  whole_ne_nil : whole ≠ []
  whole_digits : ∀ b ∈ whole, Byte.isDigit b = true
  fraction_digits : ∀ b ∈ fraction, Byte.isDigit b = true

namespace Form

def sign (negative : Bool) : Text := if negative then [ascii '-'] else []

def fractionText (fraction : Text) : Text :=
  if fraction.isEmpty then [] else ascii '.' :: fraction

def exponentText : Option Int → Text
  | none => []
  | some e => Binary64.exponentText e

/-- The numeral without its sign. -/
def magnitudeText (f : Form) : Text :=
  f.whole ++ (fractionText f.fraction ++ exponentText f.exponent)

def text (f : Form) : Text := sign f.negative ++ f.magnitudeText

/-- The decimal that the numeral describes, without its sign. -/
def magnitude (f : Form) : Decimal :=
  ⟨Text.toNat (f.whole ++ f.fraction), f.exponent.getD 0 - f.fraction.length⟩

def kind (f : Form) : TokenKind :=
  if f.fraction.isEmpty && f.exponent.isNone then .integer else .float

end Form

/-- An exponent as it may be written, with the power of ten that it stands for. -/
inductive IsExponent : Text → Int → Prop where
  | absent : IsExponent [] 0
  | marked (mark : UInt8) (sign digits : Text) (isMark : mark = ascii 'e' ∨ mark = ascii 'E')
      (isSign : sign = [] ∨ sign = [ascii '+'] ∨ sign = [ascii '-']) (present : digits ≠ [])
      (all : ∀ b ∈ digits, Byte.isDigit b = true) :
      IsExponent (mark :: (sign ++ digits))
        (if sign = [ascii '-'] then -(Text.toNat digits : Int) else Text.toNat digits)

/-- A numeral in parts, with its exponent as it is written. -/
structure Written where
  negative : Bool
  whole : Text
  fraction : Text
  exponent : Text
  power : Int
  whole_ne_nil : whole ≠ []
  whole_digits : ∀ b ∈ whole, Byte.isDigit b = true
  fraction_digits : ∀ b ∈ fraction, Byte.isDigit b = true
  exponent_is : IsExponent exponent power

namespace Written

def magnitudeText (f : Written) : Text :=
  f.whole ++ (Form.fractionText f.fraction ++ f.exponent)

def text (f : Written) : Text := Form.sign f.negative ++ f.magnitudeText

def magnitude (f : Written) : Decimal :=
  ⟨Text.toNat (f.whole ++ f.fraction), f.power - f.fraction.length⟩

def kind (f : Written) : TokenKind :=
  if f.fraction.isEmpty && f.exponent.isEmpty then .integer else .float

/-- The integer that the digits before the point describe. -/
def integer (f : Written) : Int :=
  if f.negative then -(Text.toNat f.whole : Int) else Text.toNat f.whole

/-- The double precision number that the numeral stands for. -/
def number (f : Written) : Binary64 := f.magnitude.toBinary64 f.negative

end Written

theorem exponentText_eq (e : Int) : ∃ digits : Text, digits ≠ [] ∧
    (∀ b ∈ digits, Byte.isDigit b = true) ∧ Text.toNat digits = e.natAbs ∧
    Binary64.exponentText e =
      ascii 'e' :: (if e < 0 then ascii '-' else ascii '+') :: digits := by
  have digits (b : UInt8) := Text.isDigit_of_mem_ofNat e.natAbs b
  have value := Text.toNat_ofNat e.natAbs
  have present := Text.ofNat_ne_nil e.natAbs
  unfold Binary64.exponentText
  generalize Text.ofNat e.natAbs = written at digits value present ⊢
  -- An exponent has at least two digits.
  refine ⟨if written.length < 2 then ascii '0' :: written else written, ?_, ?_, ?_, ?_⟩
  · split
    · exact List.cons_ne_nil _ _
    · exact present
  · split
    · exact List.forall_mem_cons.mpr ⟨by decide, digits⟩
    · exact digits
  · split
    · exact (Text.toNat_zeros 1 written).trans value
    · exact value
  · by_cases below : e < 0
    · rw [if_pos below, if_pos below]
      rfl
    · rw [if_neg below, if_neg below]
      rfl

theorem isExponent_exponentText (e : Option Int) :
    IsExponent (Form.exponentText e) (e.getD 0) := by
  cases e with
  | none => exact .absent
  | some e =>
    obtain ⟨digits, present, all, value, written⟩ := exponentText_eq e
    have isMark : ascii 'e' = ascii 'e' ∨ ascii 'e' = ascii 'E' := .inl rfl
    rw [Form.exponentText, written]
    by_cases below : e < 0
    · have exponent := IsExponent.marked _ _ digits isMark (.inr (.inr rfl)) present all
      rw [if_pos rfl, value, show -(e.natAbs : Int) = e by omega] at exponent
      rw [if_pos below]
      exact exponent
    · have exponent := IsExponent.marked _ _ digits isMark (.inr (.inl rfl)) present all
      rw [if_neg (by decide), value, show (e.natAbs : Int) = e by omega] at exponent
      rw [if_neg below]
      exact exponent

/-- What may stand after a numeral. -/
abbrev Ends (rest : Text) : Prop := Text.StopsAt Byte.continuesNumeral rest

theorem Ends.digit {rest : Text} (ends : Ends rest) : Text.StopsAt Byte.isDigit rest := by
  intro b first
  have none := ends b first
  simp only [Byte.continuesNumeral, Bool.or_eq_false_iff] at none
  exact none.1.1.1

namespace IsExponent

variable {exponent : Text} {power : Int} (isExponent : IsExponent exponent power)

include isExponent

theorem stops_after_fraction (rest : Text) (ends : Ends rest) :
    Text.StopsAt (fun b => Byte.isDigit b || b == ascii '.') (exponent ++ rest) := by
  intro b first
  cases isExponent with
  | absent =>
    have none := ends b first
    simp only [Byte.continuesNumeral, Bool.or_eq_false_iff] at none
    simp [none.1.1]
  | marked mark sign digits isMark =>
    obtain rfl : mark = b := Option.some.inj first
    rcases isMark with rfl | rfl <;> decide

theorem stops_after_digits (rest : Text) (ends : Ends rest) :
    Text.StopsAt Byte.isDigit (exponent ++ rest) := by
  intro b first
  exact (Bool.or_eq_false_iff.mp (isExponent.stops_after_fraction rest ends b first)).1

theorem stops_after_whole (fraction rest : Text) (ends : Ends rest) :
    Text.StopsAt Byte.isDigit (Form.fractionText fraction ++ (exponent ++ rest)) := by
  cases fraction with
  | nil => exact isExponent.stops_after_digits rest ends
  | cons d fraction =>
    intro b first
    obtain rfl : ascii '.' = b := Option.some.inj first
    decide

/-- Exactly the digits after the point are taken for the fraction. -/
theorem fractionPart_text (fraction : Text) (digits : ∀ b ∈ fraction, Byte.isDigit b = true)
    (rest : Text) (ends : Ends rest) :
    Lexeme.fractionPart (Form.fractionText fraction ++ (exponent ++ rest)) =
      (Form.fractionText fraction, exponent ++ rest) := by
  have after := isExponent.stops_after_digits rest ends
  cases fraction with
  | nil =>
    -- Without a fraction the next byte, if any, is not a point.
    have none := isExponent.stops_after_fraction rest ends
    show Lexeme.fractionPart (exponent ++ rest) = ([], exponent ++ rest)
    cases left : exponent ++ rest with
    | nil => rfl
    | cons b more =>
      rw [left] at none
      have point := (Bool.or_eq_false_iff.mp (none b rfl)).2
      simp [Lexeme.fractionPart, ne_of_beq_false point]
  | cons d fraction =>
    have taken := Text.takeWhile_run Byte.isDigit (d :: fraction) _ digits after
    have left := Text.dropWhile_run Byte.isDigit (d :: fraction) _ digits after
    show Lexeme.fractionPart (ascii '.' :: ((d :: fraction) ++ (exponent ++ rest))) = _
    simp only [Lexeme.fractionPart, taken, left]
    rfl

/-- Exactly the exponent is taken, whatever ends the numeral. -/
theorem exponentPart_text (rest : Text) (ends : Ends rest) :
    Lexeme.exponentPart (exponent ++ rest) = (exponent, rest) := by
  cases isExponent with
  | absent =>
    cases rest with
    | nil => rfl
    | cons b more =>
      have none := ends b rfl
      simp only [Byte.continuesNumeral, Bool.or_eq_false_iff] at none
      show Lexeme.exponentPart (b :: more) = ([], b :: more)
      simp [Lexeme.exponentPart, ne_of_beq_false none.1.2, ne_of_beq_false none.2]
  | marked mark sign digits isMark isSign present all =>
    have taken := Text.takeWhile_run Byte.isDigit digits rest all ends.digit
    have left := Text.dropWhile_run Byte.isDigit digits rest all ends.digit
    have signed : Lexeme.signPart (fun b => b == ascii '+' || b == ascii '-')
        (sign ++ (digits ++ rest)) = (sign, digits ++ rest) := by
      rcases isSign with rfl | rfl | rfl
      · obtain ⟨d, more, rfl⟩ := List.exists_cons_of_ne_nil present
        have plain := Byte.ne_sign_of_isDigit (all d List.mem_cons_self)
        simp [Lexeme.signPart, plain.1, plain.2]
      · rfl
      · rfl
    simp only [List.cons_append, List.append_assoc, Lexeme.exponentPart, signed, taken, left]
    simp [present, isMark]

/-- Reading an exponent gives its power and leaves nothing. -/
theorem exponent_text :
    Numeral.exponent (fun b => Byte.toLower b = ascii 'e') exponent = (power, []) := by
  cases isExponent with
  | absent => rfl
  | marked mark sign digits isMark isSign present all =>
    have stop := Text.stopsAt_nil Byte.isDigit
    have taken := Text.takeWhile_run Byte.isDigit digits [] all stop
    have left := Text.dropWhile_run Byte.isDigit digits [] all stop
    rw [List.append_nil] at taken left
    have marks : Byte.toLower mark = ascii 'e' := by
      rcases isMark with rfl | rfl <;> decide
    have plus : ascii '+' ≠ ascii '-' := by decide
    -- The signs lead through different branches, with the same digits after them.
    rcases isSign with rfl | rfl | rfl
    · obtain ⟨d, more, rfl⟩ := List.exists_cons_of_ne_nil present
      have plain := Byte.ne_sign_of_isDigit (all d List.mem_cons_self)
      simp [Numeral.exponent, taken, left, marks, plain.1, plain.2]
    · simp [Numeral.exponent, taken, left, marks, plus, present]
    · simp [Numeral.exponent, taken, left, marks, present]

theorem mem_cases (b : UInt8) (member : b ∈ exponent) : Byte.isDigit b = true ∨
    b ∈ [ascii 'e', ascii 'E', ascii '+', ascii '-'] := by
  cases isExponent with
  | absent => exact absurd member List.not_mem_nil
  | marked mark sign digits isMark isSign present all =>
    rcases List.mem_cons.mp member with rfl | member
    · rcases isMark with rfl | rfl
      · exact .inr (by decide)
      · exact .inr (by decide)
    · rcases List.mem_append.mp member with signs | digit
      · rcases isSign with rfl | rfl | rfl
        · exact absurd signs List.not_mem_nil
        · rw [List.mem_singleton.mp signs]
          exact .inr (by decide)
        · rw [List.mem_singleton.mp signs]
          exact .inr (by decide)
      · exact .inl (all b digit)

end IsExponent

namespace Written

theorem magnitudeText_append (f : Written) (rest : Text) : f.magnitudeText ++ rest =
    f.whole ++ (Form.fractionText f.fraction ++ (f.exponent ++ rest)) := by
  simp only [magnitudeText, List.append_assoc]

theorem magnitudeText_cons (f : Written) :
    ∃ d more, f.magnitudeText = d :: more ∧ Byte.isDigit d = true := by
  obtain ⟨d, whole, equal⟩ := List.exists_cons_of_ne_nil f.whole_ne_nil
  refine ⟨d, whole ++ (Form.fractionText f.fraction ++ f.exponent), ?_, ?_⟩
  · rw [magnitudeText, equal, List.cons_append]
  · exact f.whole_digits d (by rw [equal]; exact List.mem_cons_self)

theorem signPart_text (f : Written) (rest : Text) :
    Lexeme.signPart (· == ascii '-') (f.text ++ rest) =
      (Form.sign f.negative, f.magnitudeText ++ rest) := by
  unfold text
  cases f.negative with
  | true => rfl
  | false =>
    obtain ⟨d, more, starts, digit⟩ := f.magnitudeText_cons
    have unsigned := (Byte.ne_sign_of_isDigit digit).1
    show Lexeme.signPart (· == ascii '-') (f.magnitudeText ++ rest) = ([], f.magnitudeText ++ rest)
    rw [starts]
    simp [Lexeme.signPart, unsigned]

theorem kind_eq (f : Written) :
    (if (Form.fractionText f.fraction).isEmpty && f.exponent.isEmpty
      then TokenKind.integer else .float) = f.kind := by
  have whole : (Form.fractionText f.fraction).isEmpty = f.fraction.isEmpty := by
    cases f.fraction <;> simp [Form.fractionText]
  rw [whole, kind]

/-- A numeral before a byte that cannot continue it is one lexeme. -/
theorem number_text (f : Written) (rest : Text) (ends : Ends rest) :
    Lexeme.number (f.text ++ rest) = Lexeme.plain f.kind f.text rest := by
  have after := f.exponent_is.stops_after_whole f.fraction rest ends
  have taken := Text.takeWhile_run Byte.isDigit f.whole _ f.whole_digits after
  have left := Text.dropWhile_run Byte.isDigit f.whole _ f.whole_digits after
  have fraction := f.exponent_is.fractionPart_text f.fraction f.fraction_digits rest ends
  have exponent := f.exponent_is.exponentPart_text rest ends
  -- Each part of the numeral is taken as far as it goes, since the next part starts otherwise.
  unfold Lexeme.number
  simp only [f.signPart_text rest, f.magnitudeText_append rest, taken, left, fraction, exponent,
    f.kind_eq]
  simp only [text, magnitudeText, List.append_assoc]

theorem startsNumber_text (f : Written) (rest : Text) :
    Lexeme.startsNumber (f.text ++ rest) = true := by
  obtain ⟨d, more, starts, digit⟩ := f.magnitudeText_cons
  unfold text
  rw [starts]
  cases f.negative with
  | true => simp [Form.sign, Lexeme.startsNumber, digit]
  | false =>
    show Lexeme.startsNumber (d :: (more ++ rest)) = true
    cases more ++ rest with
    | nil => exact digit
    | cons b left => simp [Lexeme.startsNumber, digit]

/-- Whole part, fraction and exponent are told apart. -/
theorem digitsAndFraction_text (f : Written) :
    digitsAndFraction Byte.isDigit f.magnitudeText = (f.whole, f.fraction, f.exponent) := by
  have ends : Ends [] := Text.stopsAt_nil _
  have after := f.exponent_is.stops_after_whole f.fraction [] ends
  have stop := f.exponent_is.stops_after_fraction [] ends
  have none := f.exponent_is.stops_after_digits [] ends
  rw [List.append_nil] at after stop none
  unfold digitsAndFraction magnitudeText
  rw [Text.takeWhile_run Byte.isDigit f.whole _ f.whole_digits after,
    Text.dropWhile_run Byte.isDigit f.whole _ f.whole_digits after]
  have digits := f.fraction_digits
  generalize f.fraction = fraction at digits
  cases fraction with
  | nil =>
    have nothing : Form.fractionText [] = [] := rfl
    rw [nothing, List.nil_append]
    cases written : f.exponent with
    | nil => rfl
    | cons b more =>
      rw [written] at stop
      have point := (Bool.or_eq_false_iff.mp (stop b rfl)).2
      simp [ne_of_beq_false point]
  | cons d fraction =>
    have taken := Text.takeWhile_run Byte.isDigit (d :: fraction) _ digits none
    have left := Text.dropWhile_run Byte.isDigit (d :: fraction) _ digits none
    show (if ascii '.' = ascii '.' then (f.whole,
        ((d :: fraction) ++ f.exponent).takeWhile Byte.isDigit,
        ((d :: fraction) ++ f.exponent).dropWhile Byte.isDigit) else _) = _
    rw [if_pos rfl, taken, left]

/-- Reading the magnitude gives the decimal that its parts describe. -/
theorem decimal?_text (f : Written) : decimal? f.magnitudeText = some (f.magnitude, []) := by
  have present : f.whole.isEmpty = false := by
    simp [f.whole_ne_nil]
  unfold decimal?
  simp only [f.digitsAndFraction_text, f.exponent_is.exponent_text, present, Bool.false_and]
  rfl

theorem mem_magnitudeText (f : Written) (b : UInt8) (member : b ∈ f.magnitudeText) :
    Byte.isDigit b = true ∨ b ∈ [ascii '.', ascii 'e', ascii 'E', ascii '+', ascii '-'] := by
  simp only [magnitudeText, List.mem_append] at member
  rcases member with whole | fraction | exponent
  · exact .inl (f.whole_digits b whole)
  · unfold Form.fractionText at fraction
    split at fraction
    · exact absurd fraction List.not_mem_nil
    · rcases List.mem_cons.mp fraction with rfl | digit
      · exact .inr (by decide)
      · exact .inl (f.fraction_digits b digit)
  · exact (f.exponent_is.mem_cases b exponent).imp_right (List.mem_cons_of_mem _)

/-- A numeral is not one of the words that stand for numbers and does not start like a hexadecimal
numeral. -/
theorem dropWord?_text (f : Written) (word : Text) (letter : UInt8) (member : letter ∈ word)
    (lower : Byte.isLower letter = true) (other : letter ≠ ascii 'e') :
    dropWord? word f.magnitudeText = none := by
  unfold dropWord?
  rw [if_neg]
  intro same
  rw [← same] at member
  obtain ⟨b, inside, rfl⟩ := List.mem_map.mp member
  rcases f.mem_magnitudeText b (List.mem_of_mem_take inside) with digit | mark
  · -- A digit is its own lower case and not a letter.
    rw [Byte.isDigit_iff] at digit
    have notUpper : ¬ Byte.isUpper b = true := by
      rw [Byte.isUpper_iff]
      omega
    rw [Byte.toLower, if_neg notUpper, Byte.isLower_iff] at lower
    omega
  · simp only [List.mem_cons, List.not_mem_nil, or_false] at mark
    rcases mark with rfl | rfl | rfl | rfl | rfl
    · exact absurd lower (by decide)
    · exact absurd rfl other
    · exact absurd (by decide) other
    · exact absurd lower (by decide)
    · exact absurd lower (by decide)

/-- No other notation is mistaken for a decimal numeral. -/
theorem unsigned?_text (f : Written) (negative : Bool) :
    unsigned? negative f.magnitudeText = some (f.magnitude.toBinary64 negative, []) := by
  -- Words and the hexadecimal mark are tried first, and each has a letter other than the exponent mark.
  have infinity := f.dropWord?_text "infinity" (ascii 'n') (by decide) (by decide) (by decide)
  have short := f.dropWord?_text "inf" (ascii 'n') (by decide) (by decide) (by decide)
  have undefined := f.dropWord?_text "nan" (ascii 'n') (by decide) (by decide) (by decide)
  have hexadecimal := f.dropWord?_text "0x" (ascii 'x') (by decide) (by decide) (by decide)
  simp only [unsigned?, infinity, short, undefined, hexadecimal, f.decimal?_text, Option.map_some]

/-- A numeral is read as the number nearest to the decimal it describes. -/
theorem float?_text (f : Written) : float? f.text = some (f.number, []) := by
  have unsigned := f.unsigned?_text f.negative
  obtain ⟨d, more, starts, digit⟩ := f.magnitudeText_cons
  unfold float? text number
  cases equal : f.negative with
  | true =>
    rw [equal] at unsigned
    exact unsigned
  | false =>
    rw [equal] at unsigned
    have visible : Byte.isSpace d = false := by
      rw [Byte.isDigit_iff] at digit
      rw [← Bool.not_eq_true, Byte.isSpace_iff]
      omega
    obtain ⟨minus, plus⟩ := Byte.ne_sign_of_isDigit digit
    have unmarked : Form.sign false = [] := rfl
    rw [unmarked, List.nil_append]
    rw [starts] at unsigned ⊢
    simp only [List.dropWhile_cons, visible, minus, plus, unsigned, if_false, Bool.false_eq_true]

/-- A numeral without fraction and exponent is read as an integer if it is within the range. -/
theorem int64?_text (f : Written) (isInteger : f.kind = .integer) :
    int64? f.text = if Int64.minValue.toInt ≤ f.integer ∧ f.integer ≤ Int64.maxValue.toInt
      then some (.ofInt f.integer) else none := by
  have plain : f.fraction = [] ∧ f.exponent = [] := by
    unfold kind at isInteger
    split at isInteger
    · next bare => simpa using bare
    · exact absurd isInteger (by decide)
  have written : f.text = Form.sign f.negative ++ f.whole := by
    simp [text, magnitudeText, plain, Form.fractionText]
  have accepted : (f.whole.isEmpty || !f.whole.all Byte.isDigit) = false := by
    rw [List.all_eq_true.mpr f.whole_digits, List.isEmpty_eq_false_iff.mpr f.whole_ne_nil]
    rfl
  have starts : ∀ d more, f.whole = d :: more → d ≠ ascii '-' := by
    intro d more equal
    exact (Byte.ne_sign_of_isDigit (f.whole_digits d (by rw [equal]; exact List.mem_cons_self))).1
  rw [written]
  unfold int64? integer
  cases f.negative with
  | true =>
    simp only [Form.sign, if_true, List.cons_append, List.nil_append, accepted,
      Bool.false_eq_true, if_false]
  | false =>
    have unsigned : Form.sign false = [] := rfl
    rw [unsigned, List.nil_append]
    generalize f.whole = whole at accepted starts ⊢
    cases whole with
    | nil => exact absurd accepted (by decide)
    | cons d more =>
      simp only [starts d more rfl, accepted, Bool.false_eq_true, if_false]

end Written

namespace Form

/-- A numeral with the exponent written out. -/
def written (f : Form) : Written where
  negative := f.negative
  whole := f.whole
  fraction := f.fraction
  exponent := exponentText f.exponent
  power := f.exponent.getD 0
  whole_ne_nil := f.whole_ne_nil
  whole_digits := f.whole_digits
  fraction_digits := f.fraction_digits
  exponent_is := isExponent_exponentText f.exponent

theorem kind_written (f : Form) : f.written.kind = f.kind := by
  have plain : (exponentText f.exponent).isEmpty = f.exponent.isNone := by
    cases f.exponent with
    | none => rfl
    | some e =>
      obtain ⟨digits, -, -, -, written⟩ := exponentText_eq e
      rw [exponentText, written]
      rfl
  show (if f.fraction.isEmpty && (exponentText f.exponent).isEmpty then _ else _) = _
  rw [plain]
  rfl

theorem magnitudeText_cons (f : Form) :
    ∃ d more, f.magnitudeText = d :: more ∧ Byte.isDigit d = true :=
  f.written.magnitudeText_cons

theorem number_text (f : Form) (rest : Text) (ends : Ends rest) :
    Lexeme.number (f.text ++ rest) = Lexeme.plain f.kind f.text rest := by
  have number := f.written.number_text rest ends
  rw [f.kind_written] at number
  exact number

theorem startsNumber_text (f : Form) (rest : Text) : Lexeme.startsNumber (f.text ++ rest) = true :=
  f.written.startsNumber_text rest

/-- A numeral is read as the number nearest to its decimal. -/
theorem float?_text (f : Form) :
    float? f.text = some (f.magnitude.toBinary64 f.negative, []) :=
  f.written.float?_text

/-- A numeral that spells a decimal as a float. -/
structure Spells (f : Form) (negative : Bool) (d : Decimal) (t : Text) : Prop where
  negative_eq : f.negative = negative
  kind_eq : f.kind = .float
  magnitude_eq : f.magnitude = d
  text_eq : f.magnitudeText = t

theorem Spells.all_isDigit {f : Form} {negative : Bool} {d : Decimal} {t : Text}
    (spells : Spells f negative d t) : t.all Byte.isDigit = false := by
  -- The point of a fraction or the mark of an exponent is no digit, and a float has one of them.
  obtain ⟨b, member, other⟩ : ∃ b ∈ f.magnitudeText, Byte.isDigit b = false := by
    have isFloat := spells.kind_eq
    unfold kind at isFloat
    unfold magnitudeText
    cases equal : f.fraction with
    | cons d fraction =>
      refine ⟨ascii '.', List.mem_append_right _ (List.mem_append_left _ ?_), by decide⟩
      exact List.mem_cons_self
    | nil =>
      cases exponent : f.exponent with
      | none =>
        rw [equal, exponent] at isFloat
        exact absurd isFloat (by decide)
      | some e =>
        obtain ⟨digits, -, -, -, written⟩ := exponentText_eq e
        refine ⟨ascii 'e', List.mem_append_right _ (List.mem_append_right _ ?_), by decide⟩
        rw [exponentText, written]
        exact List.mem_cons_self
  rw [← spells.text_eq, List.all_eq_false]
  exact ⟨b, member, by rw [other]; decide⟩

theorem spells_point (negative : Bool) (whole fraction : Text) (present : whole ≠ [])
    (places : Nat) (some_places : 0 < places) (length : fraction.length = places)
    (digits : ∀ b ∈ whole ++ fraction, Byte.isDigit b = true) :
    ∃ f : Form, f.Spells negative ⟨Text.toNat (whole ++ fraction), -places⟩
      (whole ++ ascii '.' :: fraction) := by
  rw [List.forall_mem_append] at digits
  have fractional : fraction.isEmpty = false := by
    rw [List.isEmpty_eq_false_iff, ← List.length_pos_iff, length]
    exact some_places
  refine ⟨⟨negative, whole, fraction, none, present, digits.1, digits.2⟩, rfl, ?_, ?_, ?_⟩
  · simp [kind, fractional]
  · simp only [magnitude, length, Option.getD_none, Int.zero_sub]
  · simp only [magnitudeText, fractionText, fractional, exponentText, Bool.false_eq_true, if_false,
      List.append_nil]

theorem spells_whole (negative : Bool) (n : Nat) :
    ∃ f : Form, f.Spells negative ⟨n * 10, -1⟩ (Text.ofNat n ++ Text.ofString ".0") := by
  -- One decimal place more is ten times the digits.
  have value : Text.toNat (Text.ofNat n ++ [ascii '0']) = n * 10 := by
    have read := Text.toNat_ofNat n
    unfold Text.toNat at read ⊢
    rw [List.foldl_append, read, List.foldl_cons, List.foldl_nil]
    show 10 * n + 0 = n * 10
    omega
  rw [← value]
  apply spells_point negative (Text.ofNat n) [ascii '0'] (Text.ofNat_ne_nil n) 1 (by decide) rfl
  rw [List.forall_mem_append, List.forall_mem_singleton]
  exact ⟨Text.isDigit_of_mem_ofNat n, by decide⟩

/-- Positional notation spells the decimal, if that has places after the point. -/
theorem spells_positional (x : Binary64) (d : Decimal) (below : d.exponent < 0) :
    ∃ f : Form, f.Spells x.negative d (x.positionalText d) := by
  have digits := Text.isDigit_of_mem_ofNat d.digits
  have value := Text.toNat_ofNat d.digits
  obtain ⟨m, e⟩ := d
  obtain ⟨places, rfl⟩ := Int.exists_eq_neg_ofNat (Int.le_of_lt below)
  have some_places : 0 < places := by
    dsimp only at below
    omega
  unfold Binary64.positionalText
  dsimp only at digits value ⊢
  rw [if_neg (by omega), show (-(places : Int)).natAbs = places by omega]
  generalize Text.ofNat m = written at digits value ⊢
  by_cases inside : places < written.length
  · -- The point stands inside the digits.
    have length : (written.drop (written.length - places)).length = places := by
      rw [List.length_drop]
      omega
    have present : written.take (written.length - places) ≠ [] := by
      rw [← List.length_pos_iff, List.length_take]
      omega
    have spelled := spells_point x.negative (written.take (written.length - places))
      (written.drop (written.length - places)) present places some_places length
    rw [List.take_append_drop, value] at spelled
    rw [if_pos inside]
    exact spelled digits
  · -- Zeros stand between the point and the digits.
    have length : (List.replicate (places - written.length) (ascii '0') ++ written).length =
        places := by
      rw [List.length_append, List.length_replicate]
      omega
    have zeros := Text.toNat_zeros (places - written.length + 1) written
    rw [value] at zeros
    have spelled := spells_point x.negative [ascii '0']
      (List.replicate (places - written.length) (ascii '0') ++ written) (List.cons_ne_nil _ _)
      places some_places length
    rw [← List.append_assoc, show [ascii '0'] ++ List.replicate (places - written.length) (ascii '0') =
      List.replicate (places - written.length + 1) (ascii '0') from rfl, zeros] at spelled
    rw [if_neg inside]
    apply spelled
    rw [List.forall_mem_append]
    refine ⟨?_, digits⟩
    intro b member
    obtain rfl := List.eq_of_mem_replicate member
    decide

/-- Scientific notation spells every decimal. -/
theorem spells_scientific (negative : Bool) (d : Decimal) :
    ∃ f : Form, f.Spells negative d (Binary64.scientificText d) := by
  have digits := Text.isDigit_of_mem_ofNat d.digits
  have value := Text.toNat_ofNat d.digits
  have present := Text.ofNat_ne_nil d.digits
  unfold Binary64.scientificText
  cases written : Text.ofNat d.digits with
  | nil => exact absurd written present
  | cons first rest =>
    rw [written] at digits value
    rw [List.forall_mem_cons] at digits
    -- The point moves behind the first digit, which the exponent makes up for.
    refine ⟨⟨negative, [first], rest, some (d.exponent + rest.length), List.cons_ne_nil _ _, ?_,
      digits.2⟩, rfl, ?_, ?_, ?_⟩
    · intro b member
      obtain rfl := List.mem_singleton.mp member
      exact digits.1
    · simp [kind]
    · simp only [magnitude, List.cons_append, List.nil_append, value, Option.getD_some,
        Int.add_sub_cancel]
    · rfl

end Form

end Numeral

namespace Binary64

/-- What keeps plain digits from being read as an integer. -/
def suffix (digits : Text) : Text :=
  Text.ofString (if digits.all Byte.isDigit then ".0" else "")

/-- The suffix does not change what is spelled. -/
theorem suffix_spelled {f : Numeral.Form} {negative : Bool} {d : Decimal} {t : Text}
    (spells : f.Spells negative d t) : f.Spells negative d (t ++ suffix t) := by
  have none : suffix t = [] := by
    rw [suffix, spells.all_isDigit]
    rfl
  rwa [none, List.append_nil]

theorem suffix_ofNat (n : Nat) : suffix (Text.ofNat n) = Text.ofString ".0" := by
  rw [suffix, if_pos (List.all_eq_true.mpr (Text.isDigit_of_mem_ofNat n))]

/-- The digits of a finite number spell a decimal that is read as that number. -/
theorem magnitudeText_spelled (x : Binary64) (finite : x.isFinite = true) :
    ∃ (d : Decimal) (f : Numeral.Form), d.toBinary64 x.negative = x ∧
      f.Spells x.negative d (x.magnitudeText ++ suffix x.magnitudeText) := by
  unfold magnitudeText
  by_cases none : x.units = 0
  · obtain ⟨f, spells⟩ := Numeral.Form.spells_whole x.negative 0
    rw [if_pos none]
    exact ⟨⟨0 * 10, -1⟩, f, x.zero_of_units none, spells⟩
  · have reads := x.shortest_reads finite none
    rw [if_neg none]
    dsimp only
    split
    · by_cases below : x.shortest.exponent < 0
      · obtain ⟨f, spells⟩ := Numeral.Form.spells_positional x x.shortest below
        exact ⟨_, f, reads, suffix_spelled spells⟩
      · -- A whole number is written with all its digits, not with those of the shortest decimal.
        have above : 0 ≤ x.shortest.exponent := by omega
        have whole := Decimal.unitsPerOne_dvd_of_reads x finite x.shortest above reads
        obtain ⟨f, spells⟩ := Numeral.Form.spells_whole x.negative (x.units / unitsPerOne)
        have written : x.positionalText x.shortest = Text.ofNat (x.units / unitsPerOne) := by
          rw [positionalText, if_pos above]
        rw [written, suffix_ofNat]
        exact ⟨_, f, x.whole_reads finite none whole, spells⟩
    · obtain ⟨f, spells⟩ := Numeral.Form.spells_scientific x.negative x.shortest
      exact ⟨_, f, reads, suffix_spelled spells⟩

theorem isNaN_eq_false (x : Binary64) (finite : x.isFinite = true) : x.isNaN = false := by
  simp only [isFinite, bne_iff_ne, ne_eq] at finite
  simp [isNaN, finite]

/-- The text of a finite number is a numeral that is read as that number. -/
theorem text_form (x : Binary64) (finite : x.isFinite = true) : ∃ f : Numeral.Form,
    x.text = f.text ∧ f.kind = .float ∧ f.magnitude.toBinary64 f.negative = x := by
  have defined := x.isNaN_eq_false finite
  obtain ⟨d, f, reads, spells⟩ := x.magnitudeText_spelled finite
  refine ⟨f, ?_, spells.kind_eq, ?_⟩
  · have signs : (if x.negative then Text.ofString "-" else Text.ofString "") =
        Numeral.Form.sign x.negative := by
      cases x.negative <;> rfl
    unfold text Numeral.Form.text
    rw [spells.text_eq, spells.negative_eq, ← signs, ← List.append_assoc]
    simp only [defined, finite, Bool.false_eq_true, Bool.not_true, if_false]
    rfl
  · rw [spells.magnitude_eq, spells.negative_eq, reads]

end Binary64

/-- The text of an integer is a numeral that is read as that integer. -/
theorem Value.intText_form (n : Int64) : ∃ f : Numeral.Form,
    intText n = f.text ∧ f.kind = .integer ∧ Numeral.int64? (intText n) = some n := by
  obtain ⟨negative, k, value, written⟩ : ∃ (negative : Bool) (k : Nat),
      n.toInt = (if negative then -(k : Int) else k) ∧
        intText n = Numeral.Form.sign negative ++ Text.ofNat k := by
    unfold intText
    cases n.toInt with
    | ofNat m => exact ⟨false, m, rfl, rfl⟩
    | negSucc m => exact ⟨true, m + 1, rfl, rfl⟩
  let f : Numeral.Form := ⟨negative, Text.ofNat k, [], none, Text.ofNat_ne_nil k,
    Text.isDigit_of_mem_ofNat k, fun b member => absurd member List.not_mem_nil⟩
  have spelled : intText n = f.text := by
    rw [written]
    simp [f, Numeral.Form.text, Numeral.Form.magnitudeText, Numeral.Form.fractionText,
      Numeral.Form.exponentText]
  have integer : f.written.integer = n.toInt := by
    rw [value, ← Text.toNat_ofNat k]
    rfl
  have range : Int64.minValue.toInt ≤ n.toInt ∧ n.toInt ≤ Int64.maxValue.toInt :=
    ⟨n.minValue_le_toInt, n.toInt_le⟩
  refine ⟨f, spelled, rfl, ?_⟩
  have read := f.written.int64?_text rfl
  rw [integer, if_pos range, n.ofInt_toInt] at read
  rw [spelled]
  exact read

end Clausal
