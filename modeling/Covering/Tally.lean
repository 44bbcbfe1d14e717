import Covering.Fault

/-!
# Tallies

The two counters of a problem: solutions formatted, and searches, which are the columns chosen and
covered. They only go up, and at its largest value a counter refuses to.
-/

namespace Covering
set_option autoImplicit false

/-- Counters of a problem. -/
structure Tally where
  solutions : UInt64
  searches : UInt64
  deriving DecidableEq

namespace Tally

/-- Nothing counted. -/
def zero : Tally := ⟨0, 0⟩

/-- One more than `n`, if a word can hold it. -/
def bump (n : UInt64) : Except Fault UInt64 :=
  if n.toNat + 1 < UInt64.size then .ok (n + 1) else .error .tallyOverflow

/-- Counts a solution. -/
def countSolution (t : Tally) : Except Fault Tally := do
  return { t with solutions := ← bump t.solutions }

/-- Counts a search. -/
def countSearch (t : Tally) : Except Fault Tally := do
  return { t with searches := ← bump t.searches }

/-- Each counter raised to that of `other`, where it is smaller. -/
def raiseTo (t other : Tally) : Tally :=
  ⟨max t.solutions other.solutions, max t.searches other.searches⟩

end Tally

end Covering
