import Clausal.Facts.Table
import Clausal.Proofs.Outcome
import Clausal.Proofs.ProgramLines

/-!
# Facts written as tables

A table has a line for each row, with tabs between the cells. Splitting undoes this wherever the cells
have no tab, line feed or carriage return in them, so that a predicate whose arguments are all symbols
gets one fact for each row. Two lines are not read as the row they were written for: a blank line,
which is the row of one empty cell and is skipped, and a pair of brackets, which is read as a row
without cells.

Main result: `ofTable_toTable`.
-/

namespace Clausal

/-! ### Joining and splitting -/

namespace Text

variable (delimiter : UInt8)

theorem join_cons_cons (part next : Text) (parts : List Text) :
    join [delimiter] (part :: next :: parts) =
      part ++ delimiter :: join [delimiter] (next :: parts) := by
  simp [join, List.intercalate_cons_cons]

/-- Splitting undoes joining, unless there are no parts at all. -/
theorem split_join (parts : List Text) (nonempty : parts ≠ [])
    (inside : ∀ part ∈ parts, delimiter ∉ part) :
    split delimiter (join [delimiter] parts) = parts := by
  induction parts with
  | nil => exact absurd rfl nonempty
  | cons part parts ih =>
    rw [List.forall_mem_cons] at inside
    cases parts with
    | nil => simpa [join, List.intercalate] using split_eq_singleton delimiter part inside.1
    | cons next parts =>
      rw [join_cons_cons, split_delimiter, split_eq_singleton delimiter part inside.1,
        ih (List.cons_ne_nil _ _) inside.2]
      rfl

theorem not_mem_join {b : UInt8} (other : b ≠ delimiter) (parts : List Text)
    (absent : ∀ part ∈ parts, b ∉ part) : b ∉ join [delimiter] parts := by
  induction parts with
  | nil => exact List.not_mem_nil
  | cons part parts ih =>
    rw [List.forall_mem_cons] at absent
    cases parts with
    | nil => simpa [join, List.intercalate] using absent.1
    | cons next parts =>
      rw [join_cons_cons, List.mem_append, List.mem_cons]
      rintro (first | same | later)
      · exact absent.1 first
      · exact other same
      · exact ih absent.2 later

/-- After the delimiter that ends the last line nothing is left. -/
theorem split_lines (lines : List Text) (inside : ∀ line ∈ lines, delimiter ∉ line) :
    split delimiter (lines.flatMap fun line => line ++ [delimiter]) = lines ++ [[]] := by
  induction lines with
  | nil => rfl
  | cons line lines ih =>
    rw [List.forall_mem_cons] at inside
    rw [List.flatMap_cons, List.append_assoc, List.singleton_append, split_delimiter,
      split_eq_singleton delimiter line inside.1, ih inside.2]
    rfl

end Text

namespace Facts

/-! ### Rows -/

/-- Whether a cell can stand between tabs in a line. -/
@[mk_iff]
structure FitsCell (cell : Text) : Prop where
  noTab : ascii '\t' ∉ cell
  noLineFeed : ascii '\n' ∉ cell
  noReturn : ascii '\r' ∉ cell

instance (cell : Text) : Decidable (FitsCell cell) := decidable_of_iff' _ (fitsCell_iff cell)

/-- Whether a row has a cell for each argument of a predicate. -/
@[mk_iff]
structure FitsRow (p : Predicate) (row : List Text) : Prop where
  width : row.length = p.arity
  cells : ∀ cell ∈ row, FitsCell cell

instance (p : Predicate) (row : List Text) : Decidable (FitsRow p row) :=
  decidable_of_iff' _ (fitsRow_iff p row)

/-- The line of a row, without its end. -/
def rowLine (row : List Text) : Text := Text.join [ascii '\t'] row

def toTable (rows : List (List Text)) : Text :=
  (rows.map rowLine).flatMap fun line => line ++ [ascii '\n']

def rowFact (predicate : Text) (row : List Text) : Sentence :=
  .term predicate (row.map fun cell => .const (.string cell))

/-- The row of one empty cell. Its line is blank. -/
def blankRow : List Text := [[]]

/-- The row of one cell whose line is that of a row without cells. -/
def bracketsRow : List Text := ["()"]

section Rows

variable {row : List Text}

theorem split_rowLine (nonempty : row ≠ []) (fits : ∀ cell ∈ row, FitsCell cell) :
    Text.split (ascii '\t') (rowLine row) = row :=
  Text.split_join _ row nonempty fun cell member => (fits cell member).noTab

/-- Different rows have different lines. -/
theorem eq_of_rowLine_eq (nonempty : row ≠ []) (fits : ∀ cell ∈ row, FitsCell cell) {line : Text}
    {cells : List Text} (splits : Text.split (ascii '\t') line = cells) (same : rowLine row = line) :
    row = cells := by
  rw [← splits, ← same, split_rowLine nonempty fits]

theorem withoutReturn_rowLine (fits : ∀ cell ∈ row, FitsCell cell) :
    withoutReturn (rowLine row) = rowLine row := by
  have absent : ascii '\r' ∉ rowLine row :=
    Text.not_mem_join _ (by decide) row fun cell member => (fits cell member).noReturn
  exact if_neg fun last => absent (List.mem_of_getLast? last)

/-- A line gives back the cells of its row, except for brackets, which stand for no cells. -/
theorem rowCells_rowLine (nonempty : row ≠ []) (fits : ∀ cell ∈ row, FitsCell cell)
    (plain : row ≠ bracketsRow) : rowCells (rowLine row) = row := by
  rw [rowCells, if_neg fun same => plain (eq_of_rowLine_eq nonempty fits (by decide) same)]
  exact split_rowLine nonempty fits

end Rows

/-! ### Reading -/

/-- Cells of columns that are not numeric are taken as they are. -/
theorem cellValues_symbols (pos : Position) (numeric : List Bool)
    (symbols : ∀ b ∈ numeric, b = false) (cells : List Text) :
    cellValues pos numeric cells = .ok (cells.map fun cell => .const (.string cell)) := by
  induction cells generalizing pos numeric with
  | nil => rfl
  | cons cell cells ih =>
    have first : numeric.headD false = false := by
      cases numeric with
      | nil => rfl
      | cons b rest => exact symbols b List.mem_cons_self
    have rest : ∀ b ∈ numeric.tail, b = false := fun b member =>
      symbols b (List.mem_of_mem_tail member)
    rw [cellValues, first]
    dsimp only
    rw [ih _ _ rest]
    rfl

/-- No column is numeric where all arguments are symbols. -/
theorem numericColumns_symbols (r : Registry) (p : Predicate)
    (symbols : ∀ a ∈ p.arguments, r.scalarKind a.type = .ok .symbol) :
    numericColumns r p = .ok (p.arguments.map fun _ => false) := by
  rw [numericColumns, mapM_ok_iff, List.forall₂_map_right_iff, List.forall₂_same]
  intro a member
  rw [symbols a member]
  rfl

section Reading

variable {p : Predicate} {numeric : List Bool} (arguments : p.arguments ≠ [])
  (symbols : ∀ b ∈ numeric, b = false)

include arguments symbols

/-- The line of a row gives its fact, or nothing if it is blank. -/
theorem ofRows_row (predicate : Text) (line : UInt32) {row : List Text} (fits : FitsRow p row)
    (plain : row ≠ bracketsRow) (lines : List Text) :
    ofRows (some p) numeric predicate line (rowLine row :: lines) =
      if row = blankRow then ofRows (some p) numeric predicate (line + 1) lines
      else do
        return rowFact predicate row :: (← ofRows (some p) numeric predicate (line + 1) lines) := by
  have nonempty : row ≠ [] := by
    rintro rfl
    exact arguments (List.eq_nil_of_length_eq_zero fits.width.symm)
  rw [ofRows]
  dsimp only
  rw [withoutReturn_rowLine fits.cells]
  split
  next empty =>
    rw [List.isEmpty_iff] at empty
    have blank : row = blankRow := eq_of_rowLine_eq nonempty fits.cells rfl empty
    rw [if_pos blank]
  next visible =>
    have notBlank : row ≠ blankRow := by
      rintro rfl
      exact visible rfl
    have counted : checkColumns (some p) line row = .ok () := if_pos fits.width
    rw [if_neg notBlank, rowCells_rowLine nonempty fits.cells plain, counted,
      cellValues_symbols _ _ symbols]
    rfl

/-- Line by line, the rows are read as their facts, and blank lines are skipped. -/
theorem ofRows_rows (predicate : Text) (line : UInt32) (rows : List (List Text))
    (fits : ∀ row ∈ rows, FitsRow p row) (plain : ∀ row ∈ rows, row ≠ bracketsRow) :
    ofRows (some p) numeric predicate line (rows.map rowLine ++ [[]]) =
      .ok ((rows.filter (· ≠ blankRow)).map (rowFact predicate)) := by
  induction rows generalizing line with
  -- What follows the last line feed is one more blank line.
  | nil => rfl
  | cons row rows ih =>
    rw [List.forall_mem_cons] at fits plain
    rw [List.map_cons, List.cons_append,
      ofRows_row arguments symbols predicate line fits.1 plain.1, ih (line + 1) fits.2 plain.2]
    split
    next blank => simp [blank]
    next visible => simp [visible]

end Reading

/-- The table of a declared predicate whose arguments are all symbols is read row by row: every row
gives the fact with its cells as texts, except that a blank line gives none. -/
theorem ofTable_toTable (r : Registry) (predicate : Text) (p : Predicate)
    (declared : r.predicate? predicate = some p) (arguments : p.arguments ≠ [])
    (symbols : ∀ a ∈ p.arguments, r.scalarKind a.type = .ok .symbol) (rows : List (List Text))
    (fits : ∀ row ∈ rows, FitsRow p row) (plain : ∀ row ∈ rows, row ≠ bracketsRow) :
    ofTable (some r) predicate (toTable rows) =
      .ok ((rows.filter (· ≠ blankRow)).map (rowFact predicate)) := by
  have lines : Text.split (ascii '\n') (toTable rows) = rows.map rowLine ++ [[]] := by
    apply Text.split_lines
    rw [List.forall_mem_map]
    intro row member
    exact Text.not_mem_join _ (by decide) row fun cell inside =>
      ((fits row member).cells cell inside).noLineFeed
  have text : ∀ b ∈ p.arguments.map fun _ => false, b = false := by simp
  simp only [ofTable, declared, numericColumns_symbols r p symbols, lines]
  exact ofRows_rows arguments text predicate 1 rows fits plain

private def tag : Predicate := ⟨"Tag", [⟨"label", "Label"⟩], [], []⟩

private def renamed : Predicate := ⟨"Renamed", [⟨"old", "Label"⟩, ⟨"new", "Label"⟩], [], []⟩

/-- Labels are texts, by way of a declaration. -/
private def labels : Registry := ⟨[⟨"Label", ["str"], false⟩], [tag, renamed]⟩

private theorem labels_symbols (p : Predicate) (listed : p ∈ [tag, renamed]) :
    ∀ a ∈ p.arguments, labels.scalarKind a.type = .ok .symbol := by
  have labelled : ∀ p ∈ [tag, renamed], ∀ a ∈ p.arguments, a.type = "Label" := by decide
  intro a member
  rw [labelled p listed a member]
  rfl

theorem ofTable_toTable_labels :
    labels.predicate? "Tag" = some tag ∧ labels.predicate? "Renamed" = some renamed ∧
      ofTable (some labels) "Tag" (toTable [["a b"], blankRow, ["(x)"]]) =
        .ok [rowFact "Tag" ["a b"], rowFact "Tag" ["(x)"]] ∧
      ofTable (some labels) "Renamed" (toTable [["", ""], ["()", "1.5"]]) =
        .ok [rowFact "Renamed" ["", ""], rowFact "Renamed" ["()", "1.5"]] := by
  refine ⟨rfl, rfl, ?_, ?_⟩
  · exact ofTable_toTable labels "Tag" tag rfl (by decide) (labels_symbols tag (by simp))
      [["a b"], blankRow, ["(x)"]] (by decide) (by decide)
  · exact ofTable_toTable labels "Renamed" renamed rfl (by decide) (labels_symbols renamed (by simp))
      [["", ""], ["()", "1.5"]] (by decide) (by decide)

/-- The row of one empty cell is lost, and the row of one pair of brackets is refused for the number of
its cells, although both have a cell for the only argument. -/
theorem ofTable_loses_row :
    labels.predicate? "Tag" = some tag ∧
      (∀ a ∈ tag.arguments, labels.scalarKind a.type = .ok .symbol) ∧
      FitsRow tag blankRow ∧ ofTable (some labels) "Tag" (toTable [blankRow]) = .ok [] ∧
      FitsRow tag bracketsRow ∧
      ofTable (some labels) "Tag" (toTable [bracketsRow]) = .error (.wrongColumns "Tag" 1 0 1) :=
  ⟨rfl, labels_symbols tag (by simp), by decide, rfl, by decide, rfl⟩

end Facts

end Clausal
