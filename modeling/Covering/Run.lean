import Covering.Problem
import Covering.Run.Event

/-!
# Runs

A run searches a mesh depth first for coverings. At each level it covers the active column with
the fewest rows and tries the rows of that column from top to bottom; when no column is active the
chosen rows are a solution. `Run.step` is one move of the search, `Run.next` goes on to the next
solution and can be called again, `Run.drain` collects all that are to come, and `Run.close` undoes
whatever is still covered.

A run can start from a bookmark. As long as it follows the saved path, it chooses at each level the
first row whose labels are those of the path, without counting or reporting it; everything before
that row is skipped. What the path leaves over goes on as an ordinary search. Every row chosen there
is reported to whoever keeps the bookmark; a run from the start has nobody to report to.
-/

namespace Covering
set_option autoImplicit false

/-- Where to resume: the path of rows to follow, the tally to raise the problem's tally to, and
whether the path is a solution that the caller already has. -/
structure Bookmark where
  path : List Labels
  tally : Option Tally
  reported : Bool
  deriving DecidableEq

/-- A bookmark that knows nothing but its path, which, unless empty, counts as a solution that the
caller already has. -/
def Bookmark.ofPath (path : List Labels) : Bookmark := ⟨path, none, !path.isEmpty⟩

/-- A level of the search: the column covered there, the slot of the row chosen in its lane, or 0
before the first, and whether the saved path chose that row. -/
structure Branch where
  column : Nat
  slot : Nat
  replayed : Bool
  deriving DecidableEq

/-- A search in progress. Branches and chosen rows are listed from the innermost level outward;
`pending` is what is left of the saved path, `replayDepth` its whole length. A run that is not
`watched` has nobody to report to. -/
structure Run where
  mesh : Mesh
  tally : Tally
  branches : List Branch
  chosen : List Labels
  pending : List Labels
  replayDepth : Nat
  reported : Bool
  watched : Bool
  started : Bool
  deriving DecidableEq

/-- What a step comes to. -/
inductive Turn where
  /-- The chosen rows are a solution, which the caller does not have. -/
  | found (solution : Solution) (run : Run)
  /-- There is more to do. -/
  | moved (run : Run)
  /-- Everything has been searched. -/
  | ended (run : Run)
  deriving DecidableEq

/-- The events of a step and what it comes to. Events before a fault still happened. -/
structure Step where
  events : List Event
  turn : Except Fault Turn

namespace Run

/-- A run over `p` that has not started, from the path of a bookmark. -/
def start (p : Problem) (path : List Labels) (reported watched : Bool) : Run where
  mesh := p.mesh
  tally := p.tally
  branches := []
  chosen := []
  pending := path
  replayDepth := path.length
  reported := reported
  watched := watched
  started := false

/-- The number of branches. -/
def level (r : Run) : Nat := r.branches.length

/-- The rows chosen so far, in the order in which they were chosen. -/
def solution (r : Run) : Solution := r.chosen.reverse

/-- Whether the rows chosen are exactly the saved path, and the caller already has them. -/
def isReplayed (r : Run) : Bool :=
  r.reported && r.level == r.replayDepth && r.branches.all (·.replayed)

/-- The report of the rows chosen, if there is somebody to report to. -/
def report (r : Run) : List Event := if r.watched then [.report ⟨r.chosen, r.tally⟩] else []

/-! ## Steps -/

/-- Begins a level: the smallest active column is covered, or the rows chosen are a solution. A
level that the saved path leads to has been counted before. -/
def enter (r : Run) : Step :=
  match r.mesh.chooseColumn with
  | none =>
    match r.pending with
    | _ :: _ =>
      ⟨[.notice (.pathTooLong (r.chosen.length + r.pending.length) r.level),
        .notice (.solutionFound r.level)],
        .ok (.found r.solution { r with pending := [] })⟩
    | [] =>
      if r.isReplayed then ⟨[.notice .pathReplayed], .ok (.moved r)⟩
      else ⟨[.notice (.solutionFound r.level)], .ok (.found r.solution r)⟩
  | some column =>
    ⟨[], do
      let tally ← if r.pending.isEmpty then r.tally.countSearch else pure r.tally
      let mesh ← r.mesh.cover column
      return .moved { r with mesh, tally, branches := ⟨column, 0, false⟩ :: r.branches }⟩

/-- Begins the level after the row at `slot` of `column` has been chosen, on the branch that
replaces the innermost one. -/
def choose (r : Run) (column slot : Nat) (replayed : Bool) : Step :=
  match r.mesh.coverMates column slot with
  | .error fault => ⟨[], .error fault⟩
  | .ok mesh => enter { r with mesh, branches := ⟨column, slot, replayed⟩ :: r.branches.tail }

/-- Gives up the innermost branch, whose column is `column`. -/
def retreat (r : Run) (column : Nat) : Run :=
  { r with mesh := r.mesh.showColumn column, branches := r.branches.tail, pending := [] }

/-- Undoes the choice of the innermost branch, if it has made one, and forgets what is left of the
saved path with it. -/
def undo (r : Run) (branch : Branch) : Run :=
  if branch.slot = 0 then r
  else
    { r with
      mesh := r.mesh.showMates branch.column branch.slot
      chosen := r.chosen.tail
      pending := [] }

/-- Moves the innermost branch on to its next row: the first that the saved path asks for, or
simply the next below. Without one the branch ends. -/
def advance (r : Run) (branch : Branch) : Step :=
  let level := r.level - 1
  let column := branch.column
  let r := r.undo branch
  let candidates := (r.mesh.lane column).ring.after branch.slot
  match r.pending with
  | wanted :: later =>
    match candidates.find? fun slot => r.mesh.labelsOfRow (r.mesh.rowAt column slot) == wanted with
    | some slot => choose { r with chosen := wanted :: r.chosen, pending := later } column slot true
    | none => ⟨[.notice (.pathUnmatched level)], .ok (.moved (r.retreat column))⟩
  | [] =>
    match candidates with
    | [] => ⟨[], .ok (.moved (r.retreat column))⟩
    | slot :: _ =>
      let left := if level < r.replayDepth then [Event.notice (.pathLeft level)] else []
      let r := { r with chosen := r.mesh.labelsOfRow (r.mesh.rowAt column slot) :: r.chosen }
      let rest := r.choose column slot false
      ⟨left ++ r.report ++ rest.events, rest.turn⟩

/-- The notice of the first step. -/
def startNotice (r : Run) : Notice :=
  .started r.mesh.table.columnCount r.mesh.table.secondary r.mesh.table.rowCount r.replayDepth

/-- One move of the search. -/
def step (r : Run) : Step :=
  if r.started then
    match r.branches with
    | [] => ⟨[], .ok (.ended r)⟩
    | branch :: _ => r.advance branch
  else
    let first := enter { r with started := true }
    ⟨.notice r.startNotice :: first.events, first.turn⟩

/-- Enough steps for a call of `next`: each step but the last counts a search, follows the saved
path or moves a branch down its lane, and a counter that is a word can only go up so often. -/
def stepBound (r : Run) : Nat :=
  (UInt64.size + r.pending.length + r.level + 1) * (r.mesh.table.rowCount + 2)

/-- Goes on until a solution is found or the search ends, in `bound` steps; `events` are those
emitted before. -/
def seek : Nat → Run → Array Event → Array Event × Except Fault (Option Solution × Run)
  | 0, _, events => (events, .error .unfinished)
  | bound + 1, r, events =>
    match r.step with
    | ⟨emitted, turn⟩ =>
      let events := emitted.foldl Array.push events
      match turn with
      | .error fault => (events, .error fault)
      | .ok (.found solution r) => (events, .ok (some solution, r))
      | .ok (.moved r) => seek bound r events
      | .ok (.ended r) => (events, .ok (none, r))

/-- The next solution, or none when everything has been searched, after the events on the way. -/
def next (r : Run) : Array Event × Except Fault (Option Solution × Run) := seek r.stepBound r #[]

/-- The next solutions, `limit` at most, and the run after them. -/
def take : Nat → Run → Except Fault (List Solution × Run)
  | 0, r => .ok ([], r)
  | limit + 1, r =>
    match r.next.2 with
    | .error fault => .error fault
    | .ok (none, r) => .ok ([], r)
    | .ok (some solution, r) =>
      (take limit r).map fun (solutions, r) => (solution :: solutions, r)

/-- All solutions that are still to come, and the run after them. Each takes a step at least. -/
def drain (r : Run) : Except Fault (List Solution × Run) := take r.stepBound r

/-! ## Around the search -/

/-- The text of `solution`, which is counted. -/
def format (r : Run) (solution : Solution) : Except Fault (String × Run) := do
  let tally ← r.tally.countSolution
  return (solution.text, { r with tally })

/-- Undoes the covers of `branches`, innermost first. -/
def unwind (m : Mesh) : List Branch → Mesh
  | [] => m
  | branch :: rest =>
    let m := if branch.slot = 0 then m else m.showMates branch.column branch.slot
    unwind (m.showColumn branch.column) rest

/-- Ends the run wherever it stands, and gives the problem back. -/
def close (r : Run) : Problem := ⟨unwind r.mesh r.branches, r.tally⟩

end Run

namespace Problem

/-- A search from the start, with nobody to report to. -/
def solve (p : Problem) : Run := .start p [] false false

/-- A search from a bookmark, reported to whoever keeps it. -/
def resume (p : Problem) (b : Bookmark) : Run :=
  let tally := match b.tally with
    | some saved => p.tally.raiseTo saved
    | none => p.tally
  .start { p with tally } b.path b.reported true

end Problem

end Covering
