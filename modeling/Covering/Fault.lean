/-!
# Faults

What can go wrong in the use of a mesh or a search that was built without defect: a position that
does not exist, a size or a counter that leaves its range, a report that is not taken.
-/

namespace Covering
set_option autoImplicit false

/-- Why an operation has no result. -/
inductive Fault where
  /-- No column has this position. -/
  | missingColumn (column : Nat)
  /-- No row has this position. -/
  | missingRow (row : Nat)
  /-- Some column would have fewer than no rows, or more than its size can count. -/
  | sizeOutOfRange
  /-- A counter is at its largest value and should go up. -/
  | tallyOverflow
  /-- Whoever takes the reports of a search broke off at one. -/
  | brokenOff
  /-- A call took more steps than its bound. -/
  | unfinished
  deriving DecidableEq

end Covering
