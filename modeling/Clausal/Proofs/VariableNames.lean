import Clausal.Proofs.Numerals
import Clausal.Text.Identifier
import Mathlib.Data.List.Forall2

/-!
# Names that are written alike

Two names have one lower case form if they agree byte by byte up to the case of letters. They have one
upper camel case form if they consist of the same words, where underscores part the words and the case
of their first letters does not count; the mark in front of a name without a capital is the only other
way for two names to be written alike.
-/

namespace Clausal

/-! ### Lower case -/

namespace Byte

/-- Equal up to the case of a letter. -/
def SameLetter (a b : UInt8) : Prop :=
  a = b ∨ (isUpper a = true ∧ b = a + 32) ∨ (isUpper b = true ∧ a = b + 32)

theorem toLower_of_isUpper {b : UInt8} (upper : isUpper b = true) : toLower b = b + 32 := by
  rw [toLower, if_pos upper]

theorem toLower_eq_iff (a b : UInt8) : toLower a = toLower b ↔ SameLetter a b := by
  constructor
  · intro same
    by_cases upperA : isUpper a = true
    · rw [toLower_of_isUpper upperA] at same
      by_cases upperB : isUpper b = true
      · rw [toLower_of_isUpper upperB] at same
        exact .inl ((UInt8.add_left_inj 32).mp same)
      · rw [toLower_of_not_isUpper (Bool.eq_false_iff.mpr upperB)] at same
        exact .inr (.inl ⟨upperA, same.symm⟩)
    · rw [toLower_of_not_isUpper (Bool.eq_false_iff.mpr upperA)] at same
      by_cases upperB : isUpper b = true
      · rw [toLower_of_isUpper upperB] at same
        exact .inr (.inr ⟨upperB, same⟩)
      · rw [toLower_of_not_isUpper (Bool.eq_false_iff.mpr upperB)] at same
        exact .inl same
  · -- The lower case form of a capital is its own lower case form.
    have lowered {c : UInt8} (upper : isUpper c = true) : toLower (c + 32) = toLower c := by
      rw [← toLower_of_isUpper upper, toLower_of_not_isUpper (isUpper_toLower c)]
    rintro (rfl | ⟨upper, rfl⟩ | ⟨upper, rfl⟩)
    · rfl
    · exact (lowered upper).symm
    · exact lowered upper

end Byte

namespace Text

/-- Names that agree byte by byte up to the case of letters. -/
def SameLetters (x y : Text) : Prop := List.Forall₂ Byte.SameLetter x y

/-- Names are one in lower case exactly if they agree up to the case of letters. -/
theorem toLower_eq_iff (x y : Text) : x.toLower = y.toLower ↔ x.SameLetters y := by
  rw [SameLetters, toLower, toLower]
  induction x generalizing y with
  | nil => cases y <;> simp
  | cons a x ih =>
    cases y with
    | nil => simp
    | cons b y => rw [List.map_cons, List.map_cons, List.cons.injEq, Byte.toLower_eq_iff, ih,
        List.forall₂_cons]

/-! ### Upper camel case -/

def capitalize : Text → Text
  | [] => []
  | b :: rest => Byte.toUpper b :: rest

/-- The words between underscores, each with a capital, one after another. -/
def camel (t : Text) : Text := (t.split (ascii '_')).flatMap capitalize

theorem split_ne_nil (delimiter : UInt8) (t : Text) : split delimiter t ≠ [] := by
  fun_cases split delimiter t <;> simp_all

/-- Inside a word nothing changes up to the next underscore. -/
theorem capitalizeSegments_eq (t : Text) :
    capitalizeSegments true t = camel t ∧
      ∀ word words, split (ascii '_') t = word :: words →
        capitalizeSegments false t = word ++ words.flatMap capitalize := by
  induction t with
  | nil =>
    refine ⟨rfl, ?_⟩
    rintro _ _ ⟨⟩
    rfl
  | cons b t ih =>
    obtain ⟨outside, inside⟩ := ih
    by_cases underscore : b = ascii '_'
    · have parts : split (ascii '_') (b :: t) = [] :: split (ascii '_') t := by
        rw [split, if_pos underscore]
      constructor
      · rw [capitalizeSegments, if_pos underscore, outside, camel, camel, parts, List.flatMap_cons]
        rfl
      · intro word words found
        rw [parts] at found
        obtain ⟨rfl, rfl⟩ := List.cons.inj found
        rw [capitalizeSegments, if_pos underscore, outside, camel]
        rfl
    · obtain ⟨word, words, found⟩ := List.exists_cons_of_ne_nil (split_ne_nil (ascii '_') t)
      have parts : split (ascii '_') (b :: t) = (b :: word) :: words := by
        rw [split, if_neg underscore, found]
      constructor
      · rw [capitalizeSegments, if_neg underscore, if_pos rfl, inside word words found, camel, parts,
          List.flatMap_cons]
        rfl
      · intro first others split
        rw [parts] at split
        obtain ⟨rfl, rfl⟩ := List.cons.inj split
        rw [capitalizeSegments, if_neg underscore, if_neg Bool.false_ne_true,
          inside word words found]
        rfl

/-- What makes a capital the first byte of a variable. -/
def marked : Text → Text
  | [] => "_"
  | b :: rest => if Byte.isUpper b then b :: rest else ascii 'V' :: b :: rest

/-- Upper camel case joins the words of a name and marks what does not start with a capital. -/
theorem upperCamel_eq_marked (t : Text) : upperCamel t = marked t.camel := by
  rw [← (capitalizeSegments_eq t).1]
  rfl

/-- A text that is another one with the mark in front, where the other one needs the mark. -/
def Marks (s t : Text) : Prop :=
  s = ascii 'V' :: t ∧ ∃ b ∈ t.head?, Byte.isUpper b = false

theorem marked_of_isUpper {b : UInt8} (rest : Text) (upper : Byte.isUpper b = true) :
    marked (b :: rest) = b :: rest := by
  rw [marked, if_pos upper]

theorem marked_of_not_isUpper {b : UInt8} (rest : Text) (notUpper : Byte.isUpper b = false) :
    marked (b :: rest) = ascii 'V' :: b :: rest := by
  rw [marked, notUpper, if_neg Bool.false_ne_true]

theorem marked_cons_ne (b : UInt8) (rest : Text) : marked (b :: rest) ≠ marked [] := by
  intro same
  by_cases upper : Byte.isUpper b = true
  · rw [marked_of_isUpper rest upper] at same
    obtain ⟨rfl, -⟩ := List.cons.inj same
    exact absurd upper (by decide)
  · rw [marked_of_not_isUpper rest (Bool.eq_false_iff.mpr upper)] at same
    exact absurd (List.cons.inj same).1 (by decide)

theorem marks_cons_iff (s : Text) (b : UInt8) (rest : Text) :
    Marks s (b :: rest) ↔ s = ascii 'V' :: b :: rest ∧ Byte.isUpper b = false := by
  simp [Marks]

/-- Marked texts are equal only where one of them looks like the mark of the other. -/
theorem marked_eq_iff (s t : Text) : marked s = marked t ↔ s = t ∨ Marks s t ∨ Marks t s := by
  cases s with
  | nil =>
    cases t with
    | nil => simp
    | cons b t => simp [Marks, (marked_cons_ne b t).symm]
  | cons a s =>
    cases t with
    | nil => simp [Marks, marked_cons_ne a s]
    | cons b t =>
      rw [marks_cons_iff, marks_cons_iff]
      -- The mark is a capital, so it is never put before a name that has it already.
      by_cases upperA : Byte.isUpper a = true
      · rw [marked_of_isUpper s upperA]
        by_cases upperB : Byte.isUpper b = true
        · simp [marked_of_isUpper t upperB, upperA, upperB]
        · have notUpper := Bool.eq_false_iff.mpr upperB
          have other : a ≠ b := by
            rintro rfl
            exact upperB upperA
          simp [marked_of_not_isUpper t notUpper, upperA, notUpper, other]
      · have notUpper := Bool.eq_false_iff.mpr upperA
        rw [marked_of_not_isUpper s notUpper]
        by_cases upperB : Byte.isUpper b = true
        · have other : a ≠ b := by
            rintro rfl
            exact upperA upperB
          simp [marked_of_isUpper t upperB, notUpper, upperB, other, eq_comm]
        · have mark : Byte.isUpper (ascii 'V') = true := by decide
          have otherA : a ≠ ascii 'V' := by
            rintro rfl
            exact upperA mark
          have otherB : b ≠ ascii 'V' := by
            rintro rfl
            exact upperB mark
          simp [marked_of_not_isUpper t (Bool.eq_false_iff.mpr upperB), otherA, otherB]

/-- Names of the same words up to the case of first letters, or up to the mark in front. -/
def SameWords (x y : Text) : Prop :=
  x.camel = y.camel ∨ Marks x.camel y.camel ∨ Marks y.camel x.camel

/-- Names are one in upper camel case exactly if they have the same words. -/
theorem upperCamel_eq_iff (x y : Text) : upperCamel x = upperCamel y ↔ x.SameWords y := by
  rw [upperCamel_eq_marked, upperCamel_eq_marked, marked_eq_iff, SameWords]

end Text

end Clausal
