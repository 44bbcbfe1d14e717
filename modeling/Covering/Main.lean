import Covering.Sudoku.CommandLine

/-!
# The Sudoku program

Carries the Sudoku command out on the files, the clock and the terminal of the system.
-/

namespace Covering
set_option autoImplicit false

/-- The number of a system error. Some calls give it with a minus sign. -/
def errorNumber (code : UInt32) : UInt32 := if code < 0x80000000 then code else 0 - code

/-- A system error as a file error. -/
def FileError.ofSystem (e : IO.Error) : FileError :=
  match e with
  | .noFileOrDirectory .. => .notFound
  | .resourceBusy .. => .busy
  | .inappropriateType _ code _ =>
    if errorNumber code = 20 then .notDirectory
    else if errorNumber code = 21 then .isDirectory
    else .other (toString e)
  | .invalidArgument _ code _ =>
    if errorNumber code = 36 then .nameTooLong else .other (toString e)
  | e => .other (toString e)

/-- The result of a file operation of the system. -/
def attempt {α : Type} (action : IO α) : IO (Except FileError α) := do
  match ← action.toBaseIO with
  | .ok value => return .ok value
  | .error e => return .error (.ofSystem e)

/-- The text of a file of the system. -/
def readText (path : Path) : IO (Except FileError String) := do
  match ← attempt (IO.FS.readBinFile path.text) with
  | .ok bytes =>
    match String.fromUTF8? bytes with
    | some text => return .ok text
    | none => return .error .notText
  | .error e => return .error e

/-- Carries a script out on the system. -/
def Script.perform {α : Type} : Script α → IO α
  | done value => return value
  | read path next => do (next (← readText path)).perform
  | write path text next => do (next (← attempt (IO.FS.writeFile path.text text))).perform
  | rename source target next => do
    (next (← attempt (IO.FS.rename source.text target.text))).perform
  | remove path next => do (next (← attempt (IO.FS.removeFile path.text))).perform
  | now next => do (next (← IO.monoMsNow)).perform
  | print line next => do
    IO.println line
    (next ()).perform

end Covering

/-- Runs the command, and ends with its code after its message, if it has one. -/
def main (arguments : List String) : IO UInt32 := do
  let exit ← (Covering.Sudoku.command arguments).perform
  unless exit.message.isEmpty do IO.eprintln exit.message
  return exit.code.toUInt32
