import Covering.Notice
import Covering.Table
import Covering.Tally

/-!
# What a run tells

While it works a run emits events: notices about its course, and, if there is somebody to report to, a
report for every row it chooses that no saved path told it to choose.
-/

namespace Covering
set_option autoImplicit false

namespace Run

/-- A notice about the course of a run. Levels count the rows chosen. -/
inductive Notice where
  /-- The first step. -/
  | started (columns secondary rows replayed : Nat)
  /-- The saved path, of `depth` rows, goes on although nothing is left to cover at `level`. -/
  | pathTooLong (depth level : Nat)
  /-- The saved path led to the solution that was its end, which is not given again. -/
  | pathReplayed
  /-- A solution, to be given to the caller. -/
  | solutionFound (level : Nat)
  /-- A row chosen anew at a level that the saved path has. -/
  | pathLeft (level : Nat)
  /-- No row at `level` is the one that the saved path has there. -/
  | pathUnmatched (level : Nat)
  deriving DecidableEq

/-- The log line of a notice. -/
def Notice.line : Notice → LogLine
  | .started columns secondary rows replayed =>
    ⟨.debug, s!"starting search: {columns} columns ({secondary} secondary), {rows} rows, replaying {replayed} levels"⟩
  | .pathTooLong depth level =>
    ⟨.warning, s!"resume path is {depth} rows deep but a solution was complete at level {level}; ignoring the rest"⟩
  | .pathReplayed =>
    ⟨.info, "replayed resume path to its end, resuming after the saved solution"⟩
  | .solutionFound level => ⟨.trace, s!"solution found at level {level}"⟩
  | .pathLeft level => ⟨.debug, s!"left the resume path at level {level}"⟩
  | .pathUnmatched level =>
    let back := level - 1
    ⟨.warning, s!"no row at level {level} matches the resume path; continuing from level {back}"⟩

end Run

/-- The position of a run when it has chosen a row: the rows chosen, the last one first, and the
tally. Nothing below this position has been searched. -/
structure Report where
  chosen : List Labels
  tally : Tally
  deriving DecidableEq

/-- The rows of a report in the order in which they were chosen. -/
def Report.path (r : Report) : List Labels := r.chosen.reverse

/-- Something a run emits. -/
inductive Event where
  | notice (notice : Run.Notice)
  | report (report : Report)
  deriving DecidableEq

end Covering
