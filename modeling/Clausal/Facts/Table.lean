import Clausal.Registry
import Clausal.Token.Numeral

/-!
# Tables of facts

The facts of one predicate as Souffle exchanges them: a row for each fact, with its arguments
separated by tabs. A row of a predicate without arguments is a pair of brackets. The cells of the
numeric columns of a declared predicate are read as numbers and all others as texts.
-/

namespace Clausal

namespace Facts

/-- Whether a numeral is that of a float. -/
def isFloatNumeral (cell : Text) : Bool :=
  cell.any fun b => b == ascii '.' || b == ascii 'e' || b == ascii 'E'

/-- The float in a cell. A zero byte ends the numeral, and an empty one is zero. -/
def floatCell (pos : Position) (cell : Text) : Except Error Binary64 :=
  let numeral := cell.beforeNul
  match Numeral.float? numeral with
  | some (x, []) => Numeral.finiteAt pos cell x
  | some _ => .error (.malformed pos (.notNumber cell))
  | none => if numeral.isEmpty then .ok (.zero false) else .error (.malformed pos (.notNumber cell))

def cellValue (pos : Position) (numeric : Bool) (cell : Text) : Except Error Value :=
  if !numeric then .ok (.string cell)
  else if isFloatNumeral cell then do return .float (← floatCell pos cell)
  else do return .int (← Numeral.integerAt pos cell)

/-- The values of the cells of a row; `numeric` tells the numeric columns. -/
def cellValues (pos : Position) : List Bool → List Text → Except Error (List Sentence)
  | _, [] => .ok []
  | numeric, cell :: cells => do
    let v ← cellValue pos (numeric.headD false) cell
    let next : Position := ⟨pos.line, pos.column + UInt32.ofNat (cell.length + 1)⟩
    return .const v :: (← cellValues next numeric.tail cells)

/-- A line without the carriage return at its end. -/
def withoutReturn (line : Text) : Text :=
  if line.getLast? = some (ascii '\r') then line.dropLast else line

def rowCells (line : Text) : List Text :=
  if line = "()" then [] else Text.split (ascii '\t') line

/-- Checks the number of cells in a row of a declared predicate. -/
def checkColumns (declared : Option Predicate) (line : UInt32) (cells : List Text) :
    Except Error Unit :=
  match declared with
  | some p =>
    if cells.length = p.arity then .ok ()
    else .error (.wrongColumns p.name p.arity cells.length line)
  | none => .ok ()

/-- The facts of lines numbered from `line` on. Empty lines are skipped. -/
def ofRows (declared : Option Predicate) (numeric : List Bool) (predicate : Text)
    (line : UInt32) : List Text → Except Error (List Sentence)
  | [] => .ok []
  | text :: rows => do
    let text := withoutReturn text
    if text.isEmpty then ofRows declared numeric predicate (line + 1) rows
    else
      let cells := rowCells text
      checkColumns declared line cells
      let args ← cellValues ⟨line, 1⟩ numeric cells
      return .term predicate args :: (← ofRows declared numeric predicate (line + 1) rows)

def numericColumns (r : Registry) (p : Predicate) : Except Error (List Bool) :=
  p.arguments.mapM fun a => do return (← r.scalarKind a.type) == .number

/-- The facts of a predicate in a table. -/
def ofTable (r : Option Registry) (predicate input : Text) : Except Error (List Sentence) := do
  let lines := Text.split (ascii '\n') input
  match r with
  | none => ofRows none [] predicate 1 lines
  | some r =>
    match r.predicate? predicate with
    | none => ofRows none [] predicate 1 lines
    | some p => ofRows (some p) (← numericColumns r p) predicate 1 lines

end Facts

end Clausal
