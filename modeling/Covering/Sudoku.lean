import Covering.Problem
import Covering.Run

/-!
# Sudoku

A grid is 81 characters, row by row; the digits 1 to 9 are givens and anything else is blank. To
fill it is to cover a table of 324 columns: every cell holds a digit, and every row, column and box
holds every digit. Each placement of a digit in a cell is a row of the table with four ones. The
table has the placements of the givens and those that do not conflict with any given.
-/

namespace Covering.Sudoku
set_option autoImplicit false

/-- The names of the columns: cells by row and column, then the digits of rows, of columns and of
boxes, each group by its own number. -/
def columnNames : List String :=
  let cells := (List.range 81).map fun i =>
    let row := i / 9
    let column := i % 9
    s!"c{row}{column}"
  let group (letter : String) := (List.range 81).map fun i =>
    let place := i / 9
    let digit := i % 9 + 1
    s!"{letter}{place}n{digit}"
  cells ++ group "r" ++ group "k" ++ group "b"

/-- The columns that the placement of a digit, counted from 0, in a cell covers. -/
def placementColumns (cell digit : Nat) : List Nat :=
  let row := cell / 9
  let column := cell % 9
  [cell, 81 + row * 9 + digit, 162 + column * 9 + digit,
    243 + (row / 3 * 3 + column / 3) * 9 + digit]

/-- The digit of a given, counted from 0. -/
def given? (c : Char) : Option Nat :=
  if '1' ≤ c ∧ c ≤ '9' then some (c.toNat - '1'.toNat) else none

/-- The cells and digits of the givens, in order. -/
def givens (grid : List Char) : List (Nat × Nat) :=
  grid.zipIdx.filterMap fun (c, cell) => (given? c).map (cell, ·)

/-- The rows of the table: the givens, then every placement that shares no column with them. -/
def placements (grid : List Char) : List (List Nat) :=
  let given := (givens grid).map fun (cell, digit) => placementColumns cell digit
  let taken := (List.range 324).map fun column => given.any (·.contains column)
  let taken := taken.toArray
  let free := (List.range 81).flatMap fun cell =>
    ((List.range 9).map (placementColumns cell)).filter
      fun columns => columns.all fun column => !taken.getD column false
  given ++ free

/-- The problem of a grid; none unless it has 81 characters. -/
def problem? (grid : String) : Option Problem :=
  let cells := grid.toList
  if cells.length = 81 then
    match Table.ofIndices columnNames 0 (placements cells) with
    | .ok table => some (.ofMesh (.ofTable table))
    | .error _ => none
  else none

/-! ## Reading a solution back -/

/-- The value of a decimal digit. -/
def digit? (c : Char) : Option Nat :=
  if '0' ≤ c ∧ c ≤ '9' then some (c.toNat - '0'.toNat) else none

/-- The first of the names that begins with a letter, as characters. -/
def nameWith? (letter : Char) (row : Labels) : Option (List Char) :=
  (row.map (·.toList)).find? (·.head? == some letter)

/-- The cell and the digit that a chosen row places, read off its names. -/
def placement? (row : Labels) : Option (Nat × Char) := do
  let cell ← nameWith? 'c' row
  let digits ← nameWith? 'r' row
  match cell.tail.filterMap digit? with
  | row :: column :: _ => return (row * 9 + column, ← digits.getLast?)
  | _ => none

/-- The grid that a solution fills in; cells that it leaves out show a point. -/
def render (solution : Solution) : String :=
  let grid := solution.foldl (fun grid row =>
    match placement? row with
    | some (cell, digit) => grid.set cell digit
    | none => grid) (List.replicate 81 '.')
  String.ofList grid

end Covering.Sudoku
