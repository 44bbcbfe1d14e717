import Covering.Checkpoint.File
import Covering.Sudoku
import Covering.Sudoku.Arguments

/-!
# The Sudoku command

The command prints the first filling of a grid, or all of them, one a line. With a checkpoint file
it resumes where the file says and keeps the file updated; at the end it removes the file if it was
to print all, and else saves the position it stopped at. A file that cannot be updated at the end
is no failure.
-/

namespace Covering.Sudoku
set_option autoImplicit false

/-- How the command ends: its code, and what it says about it. -/
structure Exit where
  code : Nat
  message : String
  deriving DecidableEq

/-- The end of a command that did its work. -/
def Exit.success : Exit := ⟨0, ""⟩

/-- The end of a command whose search met a fault. A blank line sets the message off from the
solutions printed before. -/
def Exit.fault : Exit := ⟨101, "\nthe search met a fault"⟩

/-- The next solution of a run, with a checkpoint file, if there is one, taking its reports. -/
def nextSolution (r : Run) :
    Option CheckpointFile → Script (Except Fault (Option Solution × Run) × Option CheckpointFile)
  | none => .done (r.next.2, none)
  | some file => do
    let (result, file, _) ← file.next r
    return (result, some file)

/-- Counts and prints solutions, all of them or the first, `bound` at most. The checkpoint file as
it is in the end, if the search met no fault. -/
def printSolutions (all : Bool) :
    Nat → Run → Option CheckpointFile → Script (Except Fault (Option CheckpointFile))
  | 0, _, _ => .done (.error .unfinished)
  | bound + 1, r, file => do
    let (result, file) ← nextSolution r file
    match result with
    | .error fault => return .error fault
    | .ok (none, _) => return .ok file
    | .ok (some solution, r) =>
      match r.format solution with
      | .error fault => return .error fault
      | .ok (_, r) =>
        .print (render solution) fun () =>
          if all then printSolutions all bound r file else .done (.ok file)

/-- Removes the file of a search that was to print all solutions, or saves the position of one
that stopped at the first. -/
def closeFile (all : Bool) (file : CheckpointFile) : Script Unit := do
  if all then
    let _ ← file.finish
    return ()
  else
    let _ ← file.save
    return ()

/-- Solves a problem as requested, with the checkpoint file, if there is one. -/
def solve (all : Bool) (p : Problem) (file : Option CheckpointFile) : Script Exit := do
  let r := match file with
    | some file => p.resume file.checkpoint.bookmark
    | none => p.solve
  match ← printSolutions all r.stepBound r file with
  | .error _ => return .fault
  | .ok none => return .success
  | .ok (some file) =>
    closeFile all file
    return .success

/-- Carries out a request. -/
def carryOut (request : Request) : Script Exit := do
  match problem? request.grid with
  | none => return ⟨2, "puzzle must be exactly 81 characters"⟩
  | some p =>
    match request.checkpoint with
    | none => solve request.all p none
    | some path =>
      match ← CheckpointFile.load path with
      | (.ok file, _) => solve request.all p (some { file with interval := request.interval.toNat })
      | (.error failure, _) =>
        let name := path.text
        let reason := failure.message
        return ⟨1, s!"cannot open checkpoint {name}: {reason}"⟩

/-- The command with its arguments. -/
def command (arguments : List String) : Script Exit :=
  match request arguments with
  | .error misuse => .done ⟨2, misuse.message⟩
  | .ok request => carryOut request

end Covering.Sudoku
