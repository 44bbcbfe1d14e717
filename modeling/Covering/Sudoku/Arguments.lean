import Covering.Files.Path
import Covering.Json.Number

/-!
# Arguments of the Sudoku command

The command takes one grid, `--all`, `--checkpoint PATH` and `--interval SECS`, options and grid in
any order. A value follows its option as the next argument, which must not begin with a dash unless
it is one dash, or after an equals sign in the same argument. After `--` every argument counts as a
grid. Nothing may be given twice.
-/

namespace Covering.Sudoku
set_option autoImplicit false

/-- What the command is asked to do. -/
structure Request where
  grid : String
  all : Bool
  checkpoint : Option Path
  interval : UInt64
  deriving DecidableEq

/-- What is wrong with the arguments. -/
inductive Misuse where
  | unexpected (argument : String)
  | repeated (option : String)
  | valueMissing (option : String)
  | valueUnexpected (option : String)
  | valueInvalid (option value : String)
  | gridMissing
  deriving DecidableEq

/-- The text shown for a misuse. -/
def Misuse.message : Misuse → String
  | .unexpected argument => s!"error: unexpected argument '{argument}' found"
  | .repeated option => s!"error: the argument '{option}' cannot be used multiple times"
  | .valueMissing option => s!"error: a value is required for '{option}' but none was supplied"
  | .valueUnexpected option => s!"error: no value is allowed for '{option}'"
  | .valueInvalid option value => s!"error: invalid value '{value}' for '{option}'"
  | .gridMissing => "error: the grid was not provided"

/-- The arguments read so far. -/
structure Draft where
  grid : Option String
  all : Bool
  checkpoint : Option Path
  interval : Option UInt64

namespace Draft

/-- Before the first argument. -/
def empty : Draft := ⟨none, false, none, none⟩

/-- Takes a grid. -/
def addGrid (d : Draft) (argument : String) : Except Misuse Draft :=
  if d.grid.isSome then .error (.unexpected argument) else .ok { d with grid := some argument }

/-- Takes the flag for all solutions. -/
def addAll (d : Draft) : Except Misuse Draft :=
  if d.all then .error (.repeated "--all") else .ok { d with all := true }

/-- Takes the path of a checkpoint, which must not be empty. -/
def addCheckpoint (d : Draft) (value : String) : Except Misuse Draft :=
  if d.checkpoint.isSome then .error (.repeated "--checkpoint")
  else if value.isEmpty then .error (.valueMissing "--checkpoint")
  else .ok { d with checkpoint := some ⟨value⟩ }

/-- The word that an argument denotes: digits, maybe after a plus sign. -/
def word? (value : String) : Option UInt64 :=
  match value.toList with
  | '+' :: digits => Json.wordOfLiteral digits
  | digits => Json.wordOfLiteral digits

/-- Takes an interval in seconds. -/
def addInterval (d : Draft) (value : String) : Except Misuse Draft :=
  if d.interval.isSome then .error (.repeated "--interval")
  else match word? value with
    | some seconds => .ok { d with interval := some seconds }
    | none => .error (.valueInvalid "--interval" value)

/-- The request that the arguments make; an interval not given is 60 seconds. -/
def finish (d : Draft) : Except Misuse Request :=
  match d.grid with
  | none => .error .gridMissing
  | some grid => .ok ⟨grid, d.all, d.checkpoint, d.interval.getD 60⟩

end Draft

/-- Whether an argument begins with a dash and is more than that. -/
def isDashed (argument : String) : Bool :=
  match argument.toList with
  | '-' :: _ :: _ => true
  | _ => false

/-- An argument before and after its first equals sign. -/
def splitValue (argument : String) : String × Option String :=
  let (name, value) := Path.cut '=' argument.toList
  (String.ofList name, value.map String.ofList)

/-- Reads arguments all of which count as grids. -/
def readGrids : List String → Draft → Except Misuse Draft
  | [], d => .ok d
  | argument :: rest, d => (d.addGrid argument).bind (readGrids rest)

/-- Reads arguments. -/
def readArguments : List String → Draft → Except Misuse Draft
  | [], d => .ok d
  | argument :: rest, d =>
    if argument = "--" then readGrids rest d
    else if !isDashed argument then (d.addGrid argument).bind (readArguments rest)
    else
      let (name, value) := splitValue argument
      if name = "--all" then
        match value with
        | some _ => .error (.valueUnexpected name)
        | none => d.addAll.bind (readArguments rest)
      else if name = "--checkpoint" ∨ name = "--interval" then
        let add := if name = "--checkpoint" then d.addCheckpoint else d.addInterval
        match value, rest with
        | some value, rest => (add value).bind (readArguments rest)
        | none, value :: rest =>
          if isDashed value then .error (.valueMissing name)
          else (add value).bind (readArguments rest)
        | none, [] => .error (.valueMissing name)
      else .error (.unexpected argument)

/-- The request that arguments make. -/
def request (arguments : List String) : Except Misuse Request :=
  (readArguments arguments .empty).bind Draft.finish

end Covering.Sudoku
