import Covering.Fault
import Covering.Ring
import Covering.Table

/-!
# The mesh of a table

A mesh links the ones of a table in two ways: each row knows its knots, left to right, and each
column has a lane, a ring of its knots from top to bottom. One more ring holds the active columns,
which are the primary ones not covered.

Covering a column takes it out of the active ring and takes the rows that use it out of the lanes
of their other columns. Uncovering does the reverse, bottom to top and right to left, so that
covers undone last to first leave the mesh as it was.
-/

namespace Covering
set_option autoImplicit false

/-- A one of a row: its column, and its slot in that column's lane. -/
structure Knot where
  column : Nat
  slot : Nat
  deriving DecidableEq

/-- The knots of a column: the row of slot `k + 1` is `rows[k]`, and `size` counts the linked
slots. The size is an integer so that a slot taken out twice shows. -/
structure Lane where
  rows : Array Nat
  ring : Ring
  size : Int
  deriving DecidableEq

namespace Lane

/-- A lane without knots. -/
def empty : Lane := ⟨#[], .empty, 0⟩

/-- One more knot at the bottom, in `row`. -/
def push (l : Lane) (row : Nat) : Lane := ⟨l.rows.push row, l.ring.push, l.size + 1⟩

/-- Takes the knot at `slot` out. -/
def unlink (l : Lane) (slot : Nat) : Lane :=
  { l with ring := l.ring.unlink slot, size := l.size - 1 }

/-- Puts the knot at `slot` back. -/
def relink (l : Lane) (slot : Nat) : Lane :=
  { l with ring := l.ring.relink slot, size := l.size + 1 }

/-- The largest size the lane can count: a 64-bit word, or its knots if they are more. -/
def capacity (l : Lane) : Nat := max (UInt64.size - 1) l.rows.size

/-- Whether the size is one that the lane can count. -/
def inRange (l : Lane) : Bool := 0 ≤ l.size && l.size ≤ l.capacity

/-- The row of the knot at `slot`. -/
def rowAt (l : Lane) (slot : Nat) : Nat := l.rows.getD (slot - 1) 0

end Lane

/-- A table with its ones linked: the labels and the knots of each row, the lane of each column,
and the ring of active columns, in which column `c` has slot `c + 1`. -/
structure Mesh where
  table : Table
  labels : Array Labels
  rows : Array (List Knot)
  lanes : Array Lane
  active : Ring
  deriving DecidableEq

namespace Mesh

/-! ## Building -/

/-- A mesh with the columns of `t` and no rows. Secondary columns are never active. -/
def ofHeader (t : Table) : Mesh where
  table := t
  labels := #[]
  rows := #[]
  lanes := Array.replicate t.columnCount .empty
  active := (List.range t.columnCount).foldl
    (fun ring c => if c < t.primaryCount then ring.push else ring.pushAlone) .empty

/-- One more row, with ones in `columns`. -/
def pushRow (m : Mesh) (columns : List Nat) : Mesh :=
  let row := m.rows.size
  let knots := columns.map fun c => Knot.mk c ((m.lanes.getD c .empty).rows.size + 1)
  { m with
    labels := m.labels.push (m.table.labelsOf columns)
    rows := m.rows.push knots
    lanes := columns.foldl (fun lanes c => lanes.modify c (·.push row)) m.lanes }

/-- The mesh of `t`, with no column covered. -/
def ofTable (t : Table) : Mesh := t.rows.foldl pushRow (ofHeader t)

/-! ## Reading -/

/-- The lane of `column`. -/
def lane (m : Mesh) (column : Nat) : Lane := m.lanes.getD column .empty

/-- The knots of `row`, left to right. -/
def knots (m : Mesh) (row : Nat) : List Knot := m.rows.getD row []

/-- The names of the columns that `row` uses. -/
def labelsOfRow (m : Mesh) (row : Nat) : Labels := m.labels.getD row []

/-- The primary columns that are not covered, left to right. -/
def activeColumns (m : Mesh) : List Nat := m.active.slots.map (· - 1)

/-- The knots of `row` other than the one in `column`, rightward from it and around. -/
def mates (m : Mesh) (row column : Nat) : List Knot :=
  let knots := m.knots row
  knots.filter (column < ·.column) ++ knots.filter (·.column < column)

/-- The first of `columns` with the fewest rows, or `best` if none has fewer than it. -/
def smallest (m : Mesh) (best : Nat) : List Nat → Nat
  | [] => best
  | c :: rest => m.smallest (if (m.lane c).size < (m.lane best).size then c else best) rest

/-- The active column with the fewest rows, the leftmost if several have; none if no column is
active. -/
def chooseColumn (m : Mesh) : Option Nat :=
  match m.activeColumns with
  | [] => none
  | c :: rest => some (m.smallest c rest)

/-- The name of `column`. -/
def columnName (m : Mesh) (column : Nat) : Except Fault String :=
  match m.table.names[column]? with
  | some name => .ok name
  | none => .error (.missingColumn column)

/-- The labels of `row`. -/
def rowLabels (m : Mesh) (row : Nat) : Except Fault Labels :=
  match m.labels[row]? with
  | some labels => .ok labels
  | none => .error (.missingRow row)

/-- The number of rows linked into `column`. Positions past the last column go on through the
ones of the table, row by row, and answer the column of the one, counted from 1. -/
def columnSize (m : Mesh) (column : Nat) : Except Fault Nat :=
  match m.lanes[column]? with
  | some lane => .ok lane.size.toNat
  | none =>
    match m.rows.toList.flatten[column - m.lanes.size]? with
    | some knot => .ok (knot.column + 1)
    | none => .error (.missingColumn column)

/-! ## Covering and uncovering -/

/-- Takes `knot` out of its lane. -/
def unlinkKnot (m : Mesh) (knot : Knot) : Mesh :=
  { m with lanes := m.lanes.modify knot.column (·.unlink knot.slot) }

/-- Puts `knot` back into its lane. -/
def relinkKnot (m : Mesh) (knot : Knot) : Mesh :=
  { m with lanes := m.lanes.modify knot.column (·.relink knot.slot) }

/-- The knots that leave their lanes when `column` is covered, in order: of each row in its lane,
top to bottom, the mates. -/
def conflicts (m : Mesh) (column : Nat) : List Knot :=
  let lane := m.lane column
  lane.ring.slots.flatMap fun slot => m.mates (lane.rowAt slot) column

/-- The knots that return to their lanes when `column` is uncovered, in order: of each row in its
lane, bottom to top, the mates from the last to the first. -/
def returns (m : Mesh) (column : Nat) : List Knot :=
  let lane := m.lane column
  lane.ring.slotsBack.flatMap fun slot => (m.mates (lane.rowAt slot) column).reverse

/-- Takes `column` out of the active ring and its rows out of their other lanes. -/
def hideColumn (m : Mesh) (column : Nat) : Mesh :=
  let knots := m.conflicts column
  knots.foldl unlinkKnot { m with active := m.active.unlink (column + 1) }

/-- Puts the rows of `column` back into their other lanes and it into the active ring. -/
def showColumn (m : Mesh) (column : Nat) : Mesh :=
  let shown := (m.returns column).foldl relinkKnot m
  { shown with active := shown.active.relink (column + 1) }

/-- The mesh itself, if every lane can count its size. -/
def checked (m : Mesh) : Except Fault Mesh :=
  if m.lanes.all (·.inRange) then .ok m else .error .sizeOutOfRange

/-- Covers `column`. A column must not be covered twice. -/
def cover (m : Mesh) (column : Nat) : Except Fault Mesh :=
  if column < m.lanes.size then (m.hideColumn column).checked else .error (.missingColumn column)

/-- Uncovers `column`, which must be the last one covered. -/
def uncover (m : Mesh) (column : Nat) : Except Fault Mesh :=
  if column < m.lanes.size then (m.showColumn column).checked else .error (.missingColumn column)

/-! ## Rows -/

/-- The row of the knot that `column` has at `slot`. -/
def rowAt (m : Mesh) (column slot : Nat) : Nat := (m.lane column).rowAt slot

/-- Covers the other columns of the row that `column` has at `slot`, rightward. -/
def coverMates (m : Mesh) (column slot : Nat) : Except Fault Mesh :=
  (m.mates (m.rowAt column slot) column).foldlM (fun m knot => m.cover knot.column) m

/-- Uncovers the other columns of the row that `column` has at `slot`, leftward. -/
def showMates (m : Mesh) (column slot : Nat) : Mesh :=
  (m.mates (m.rowAt column slot) column).reverse.foldl (fun m knot => m.showColumn knot.column) m

end Mesh

end Covering
