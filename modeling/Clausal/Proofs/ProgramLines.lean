import Clausal.Target.LogicProgram
import Clausal.Proofs.VariableNames

/-!
# The lines of a program

A line of a program is a comment if it starts with a percent sign, and it may be blank. The other
lines make up the program. What is appended to a comment belongs to it up to the end of the line, so
a text stays inside a comment if none of its later lines is a line of the program.
-/

namespace Clausal

namespace Text

def newline : UInt8 := ascii '\n'

/-- Whether a line is neither blank nor a comment. -/
def isProgramLine (line : Text) : Bool :=
  !line.all Byte.isSpace && line.head? != some (ascii '%')

/-- The lines of a text that are neither blank nor comments. -/
def programLines (t : Text) : List Text := (split newline t).filter isProgramLine

/-- Whether a text stays inside a comment that it is appended to. -/
def Confined (t : Text) : Prop := ∀ line ∈ (split newline t).tail, isProgramLine line = false

instance (t : Text) : Decidable t.Confined :=
  inferInstanceAs (Decidable (∀ line ∈ (split newline t).tail, isProgramLine line = false))

/-! ### Splitting -/

variable (delimiter : UInt8)

theorem split_delimiter (x y : Text) :
    split delimiter (x ++ delimiter :: y) = split delimiter x ++ split delimiter y := by
  induction x with
  | nil => simp [split]
  | cons b x ih =>
    rw [List.cons_append, split, split, ih]
    split
    · rfl
    · obtain ⟨part, parts, found⟩ := List.exists_cons_of_ne_nil (split_ne_nil delimiter x)
      simp [found]

/-- The last part of a text goes on with the first part of what is appended. -/
theorem split_append (x y : Text) :
    split delimiter (x ++ y) = (split delimiter x).dropLast ++
      ((split delimiter x).getLastD [] ++ (split delimiter y).headD []) ::
        (split delimiter y).tail := by
  induction x with
  | nil =>
    obtain ⟨part, parts, found⟩ := List.exists_cons_of_ne_nil (split_ne_nil delimiter y)
    simp [split, found]
  | cons b x ih =>
    obtain ⟨part, parts, found⟩ := List.exists_cons_of_ne_nil (split_ne_nil delimiter x)
    rw [List.cons_append, split, split, ih, found]
    split
    · simp
    · cases parts <;> simp

theorem not_mem_of_mem_split (t part : Text) (member : part ∈ split delimiter t) :
    delimiter ∉ part := by
  induction t generalizing part with
  | nil => simp_all [split]
  | cons b t ih =>
    obtain ⟨first, rest, found⟩ := List.exists_cons_of_ne_nil (split_ne_nil delimiter t)
    rw [found, List.forall_mem_cons] at ih
    rw [split, found] at member
    split at member
    · rcases List.mem_cons.mp member with rfl | later
      · simp
      · rcases List.mem_cons.mp later with rfl | later
        · exact ih.1
        · exact ih.2 part later
    next other =>
      rcases List.mem_cons.mp member with rfl | later
      · simp [ih.1, Ne.symm other]
      · exact ih.2 part later

theorem split_eq_singleton (t : Text) (single : delimiter ∉ t) : split delimiter t = [t] := by
  induction t with
  | nil => rfl
  | cons b t ih =>
    rw [List.mem_cons, not_or] at single
    rw [split, if_neg (Ne.symm single.1), ih single.2]

/-- What is put before a text stands before its first part. -/
theorem split_before (x t : Text) (single : delimiter ∉ x) : split delimiter (x ++ t) =
    (x ++ (split delimiter t).headD []) :: (split delimiter t).tail := by
  rw [split_append, split_eq_singleton delimiter x single]
  rfl

/-! ### Lines of a program -/

theorem programLines_newline (x y : Text) :
    programLines (x ++ "\n" ++ y) = programLines x ++ programLines y := by
  have single : ofString "\n" = [newline] := by decide
  rw [single, List.append_assoc, List.singleton_append]
  simp [programLines, split_delimiter]

@[simp] theorem programLines_nil : programLines [] = [] := rfl

/-- Whether the lines of a text end with it, so that what is appended starts a line of its own. -/
def Closed (t : Text) : Prop := ∀ y, programLines (t ++ y) = programLines t ++ programLines y

theorem closed_nil : Closed [] := fun _ => rfl

theorem closed_newline (t : Text) : Closed (t ++ "\n") := by
  intro y
  have line := programLines_newline t []
  rw [List.append_nil, programLines_nil, List.append_nil] at line
  rw [programLines_newline, line]

theorem programLines_line (t : Text) : programLines (t ++ "\n") = programLines t := by
  simpa using programLines_newline t []

theorem Closed.append {x y : Text} (first : Closed x) (second : Closed y) : Closed (x ++ y) := by
  intro z
  rw [List.append_assoc, first, second, first, List.append_assoc]

/-- Texts that end their lines can be put one after another. -/
theorem Closed.flatMap {α : Type} {f : α → Text} (as : List α) (each : ∀ a ∈ as, Closed (f a)) :
    Closed (as.flatMap f) ∧
      programLines (as.flatMap f) = as.flatMap fun a => programLines (f a) := by
  induction as with
  | nil => exact ⟨closed_nil, rfl⟩
  | cons a as ih =>
    rw [List.forall_mem_cons] at each
    obtain ⟨closed, lines⟩ := ih each.2
    rw [List.flatMap_cons, List.flatMap_cons, each.1, lines]
    exact ⟨each.1.append closed, rfl⟩

/-! ### Comments -/

/-- A comment goes on to the end of its line. -/
theorem programLines_comment (start t : Text) (single : newline ∉ start)
    (comment : start.head? = some (ascii '%')) :
    programLines (start ++ t) = (split newline t).tail.filter isProgramLine := by
  have first : isProgramLine (start ++ (split newline t).headD []) = false := by
    cases start with
    | nil => simp at comment
    | cons b rest =>
      obtain rfl := Option.some.inj comment
      simp [isProgramLine]
  rw [programLines, split_before newline start t single]
  exact List.filter_cons_of_neg (Bool.eq_false_iff.mp first)

/-- What is appended to a comment adds no line exactly if it is confined. -/
theorem programLines_comment_eq_nil (start t : Text) (single : newline ∉ start)
    (comment : start.head? = some (ascii '%')) : programLines (start ++ t) = [] ↔ t.Confined := by
  rw [programLines_comment start t single comment, List.filter_eq_nil_iff]
  simp [Confined]

theorem confined_of_not_mem (t : Text) (single : newline ∉ t) : t.Confined := by
  simp [Confined, split_eq_singleton newline t single]

theorem confined_append (x t : Text) (single : newline ∉ x) : (x ++ t).Confined ↔ t.Confined := by
  rw [Confined, split_before newline x t single, List.tail_cons, Confined]

theorem mem_of_mem_trim (t : Text) (b : UInt8) (member : b ∈ t.trim) : b ∈ t := by
  have back := List.mem_reverse.mp member
  have middle := (List.dropWhile_sublist _).mem back
  exact (List.dropWhile_sublist _).mem (List.mem_reverse.mp middle)

/-! ### More lines than before -/

/-- Whether a list has at least as many lines as another one, and the same exactly if something
holds. -/
structure Adds (more fewer : List Text) (harmless : Prop) : Prop where
  length_le : fewer.length ≤ more.length
  eq_iff : more = fewer ↔ harmless

namespace Adds

variable {more fewer more' fewer' : List Text} {p q : Prop}

theorem refl (lines : List Text) : Adds lines lines True := ⟨Nat.le_refl _, by simp⟩

theorem of_nil (lines : List Text) (harmless : lines = [] ↔ p) : Adds lines [] p :=
  ⟨Nat.zero_le _, harmless⟩

/-- Where nothing is lost in either half, the whole is the same only if both halves are. -/
theorem append (first : Adds more fewer p) (second : Adds more' fewer' q) :
    Adds (more ++ more') (fewer ++ fewer') (p ∧ q) where
  length_le := by
    have left := first.length_le
    have right := second.length_le
    simp only [List.length_append]
    omega
  eq_iff := by
    rw [← first.eq_iff, ← second.eq_iff]
    constructor
    · intro equal
      have lengths := congrArg List.length equal
      have left := first.length_le
      have right := second.length_le
      simp only [List.length_append] at lengths
      exact List.append_inj equal (by omega)
    · rintro ⟨rfl, rfl⟩
      rfl

theorem congr (given : Adds more fewer p) (equivalent : p ↔ q) : Adds more fewer q :=
  ⟨given.length_le, given.eq_iff.trans equivalent⟩

/-- A list of texts adds lines exactly if one of its members does. -/
theorem flatMap {α : Type} {f g : α → List Text} {harmless : α → Prop} (as : List α)
    (each : ∀ a ∈ as, Adds (f a) (g a) (harmless a)) :
    Adds (as.flatMap f) (as.flatMap g) (∀ a ∈ as, harmless a) := by
  induction as with
  | nil => exact (refl []).congr (by simp)
  | cons a as ih =>
    rw [List.forall_mem_cons] at each
    exact (each.1.append (ih each.2)).congr List.forall_mem_cons.symm

end Adds

/-- The line that goes on with what is appended to a text. -/
def lastLine (t : Text) : Text := (split newline t).getLastD []

theorem lastLine_append (x z : Text) (single : newline ∉ z) :
    (x ++ z).lastLine = x.lastLine ++ z := by
  rw [lastLine, split_append, split_eq_singleton newline z single]
  simp [lastLine]

/-- The lines of a text are complete but for the last one. -/
theorem programLines_eq (t : Text) :
    programLines t = (split newline t).dropLast.filter isProgramLine ++
      [t.lastLine].filter isProgramLine := by
  obtain ⟨part, parts, found⟩ := List.exists_cons_of_ne_nil (split_ne_nil newline t)
  rw [programLines, lastLine, ← List.filter_append, found, List.getLastD_cons]
  congr 1
  exact (List.dropLast_concat_getLast (List.cons_ne_nil part parts)).symm.trans (by
    rw [List.getLast_eq_getLastD])

/-- A line that is not blank stays a comment, or a line of the program, when it goes on. -/
theorem isProgramLine_append (line rest : Text) (visible : line.all Byte.isSpace = false) :
    isProgramLine (line ++ rest) = isProgramLine line := by
  rw [isProgramLine, isProgramLine, List.all_append, visible, Bool.false_and]
  cases line with
  | nil => simp at visible
  | cons b line => rfl

theorem adds_line (line rest : Text) (visible : line.all Byte.isSpace = false)
    (proper : rest ≠ []) :
    Adds ([line ++ rest].filter isProgramLine) ([line].filter isProgramLine)
      (isProgramLine line = false) := by
  have continued := isProgramLine_append line rest visible
  cases kind : isProgramLine line with
  | false =>
    rw [kind] at continued
    rw [List.filter_singleton, List.filter_singleton, continued, kind]
    exact (Adds.refl []).congr (by simp)
  | true =>
    rw [kind] at continued
    rw [List.filter_singleton, List.filter_singleton, continued, kind]
    exact ⟨Nat.le_refl 1, by simp [proper]⟩

/-- What is appended to a line that is not blank changes the line if it is one of the program, and
may add further lines. -/
theorem adds_continued (x z : Text) (visible : x.lastLine.all Byte.isSpace = false)
    (proper : (split newline z).headD [] ≠ []) :
    Adds (programLines (x ++ z)) (programLines x)
      (x.lastLine.isProgramLine = false ∧ z.Confined) := by
  have before := Adds.refl ((split newline x).dropLast.filter isProgramLine)
  have line := adds_line x.lastLine _ visible proper
  have later : Adds ((split newline z).tail.filter isProgramLine) [] z.Confined :=
    .of_nil _ (by simp [Confined])
  have lines : programLines (x ++ z) = (split newline x).dropLast.filter isProgramLine ++
      ([x.lastLine ++ (split newline z).headD []].filter isProgramLine ++
        (split newline z).tail.filter isProgramLine) := by
    rw [programLines, split_append, ← List.filter_append, ← List.filter_append]
    rfl
  rw [lines, programLines_eq x, ← List.append_nil ([x.lastLine].filter isProgramLine)]
  exact (before.append (line.append later)).congr (by simp)

end Text

namespace LogicProgram

open Text (programLines newline Closed Confined Adds)

/-- A docstring becomes comments only, line by line. -/
theorem commentLines_programLines (t : Text) :
    Closed (commentLines t) ∧ programLines (commentLines t) = [] := by
  have each (line : Text) (member : line ∈ (Text.split (ascii '\n') t).map Text.trim) :
      Closed (if line.isEmpty then [] else "% " ++ line ++ "\n") ∧
        programLines (if line.isEmpty then [] else "% " ++ line ++ "\n") = [] := by
    obtain ⟨part, inside, rfl⟩ := List.mem_map.mp member
    split
    · exact ⟨Text.closed_nil, rfl⟩
    · refine ⟨Text.closed_newline _, ?_⟩
      rw [Text.programLines_line, Text.programLines_comment_eq_nil _ _ (by decide) (by decide)]
      -- A part between line feeds holds none, and trimming adds nothing.
      refine Text.confined_of_not_mem _ fun found => ?_
      exact Text.not_mem_of_mem_split newline t part inside
        (Text.mem_of_mem_trim part newline found)
  obtain ⟨closed, lines⟩ := Closed.flatMap _ fun line member => (each line member).1
  refine ⟨closed, lines.trans (List.flatMap_eq_nil_iff.mpr fun line member => (each line member).2)⟩

end LogicProgram

end Clausal
