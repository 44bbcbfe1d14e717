import Covering.Text.Quoted

/-!
# Defects of a table

The ways in which a header and its rows can fail to describe a table, each with its message.
Positions count from zero.
-/

namespace Covering
set_option autoImplicit false

/-- Why a header and rows are no table. -/
inductive Defect where
  /-- More secondary columns are asked for than there are columns. -/
  | tooManySecondary (secondary columns : Nat)
  /-- A row has another number of cells than there are columns. -/
  | raggedRow (row cells expected : Nat)
  /-- A name repeats an earlier one. -/
  | repeatedName (name : String)
  /-- A row lists a column that does not exist. -/
  | missingColumn (row column columns : Nat)
  /-- A row lists a column twice. -/
  | repeatedColumn (row column : Nat)
  deriving DecidableEq

/-- The text shown for a defect. -/
def Defect.message : Defect → String
  | .tooManySecondary secondary columns =>
    s!"{secondary} secondary columns requested but the header only has {columns}"
  | .raggedRow row cells expected => s!"row {row} has {cells} cells, expected {expected}"
  | .repeatedName name => "duplicate column name " ++ Text.quoted name
  | .missingColumn row column columns =>
    s!"row {row} refers to column {column}, but there are only {columns} columns"
  | .repeatedColumn row column => s!"row {row} lists column {column} more than once"

end Covering
