import Covering.Mesh
import Covering.Tally

/-!
# Problems

A problem is a mesh together with the tally of all the searches that ran over it.
-/

namespace Covering
set_option autoImplicit false

/-- The rows of `solution`, one a line, the names of a row between single spaces. -/
def Solution.text (solution : Solution) : String :=
  "\n".intercalate (solution.map (" ".intercalate ·))

/-- A mesh to be covered and what its searches counted. -/
structure Problem where
  mesh : Mesh
  tally : Tally
  deriving DecidableEq

namespace Problem

/-- A problem on which nothing has been counted. -/
def ofMesh (mesh : Mesh) : Problem := ⟨mesh, .zero⟩

/-- The text of `solution`, which is counted. -/
def format (p : Problem) (solution : Solution) : Except Fault (String × Problem) := do
  let tally ← p.tally.countSolution
  return (solution.text, { p with tally })

end Problem

end Covering
