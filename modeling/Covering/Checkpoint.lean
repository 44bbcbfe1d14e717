import Covering.Run

/-!
# Checkpoints

A checkpoint holds the last position that a search reported, to resume from it later.
-/

namespace Covering
set_option autoImplicit false

/-- A position of a search: the rows chosen, the tally, and whether the rows are a solution that
the caller already has. -/
structure Checkpoint where
  solution : List Labels
  tally : Tally
  reported : Bool
  deriving DecidableEq

namespace Checkpoint

/-- The position before a search. -/
def fresh : Checkpoint := ⟨[], .zero, false⟩

/-- The position at a solution that the caller already has. -/
def ofSolution (solution : Solution) : Checkpoint := ⟨solution, .zero, true⟩

/-- The position of a report. Nothing below it has been searched, so it is not reported. -/
def ofReport (r : Report) : Checkpoint := ⟨r.path, r.tally, false⟩

/-- The bookmark from which to resume at this position. -/
def bookmark (c : Checkpoint) : Bookmark := ⟨c.solution, some c.tally, c.reported⟩

/-- The checkpoint after `events`: the position of the last report among them. -/
def follow (c : Checkpoint) (events : List Event) : Checkpoint :=
  events.foldl (fun c event => match event with
    | .report report => ofReport report
    | .notice _ => c) c

end Checkpoint

end Covering
