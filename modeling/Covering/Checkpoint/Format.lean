import Covering.Checkpoint
import Covering.Json.Reader
import Covering.Json.Writer

/-!
# Checkpoints as JSON

A checkpoint is written as an object with the members `solution`, `stats` and `reported`, a tally
as one with `num_solutions` and `num_searches`. Read is any value of the same content: members in
any order and among others, or the fields as an array in order; a checkpoint may lack its tally,
then nothing is counted, and its mark of being reported, then it is not.
-/

namespace Covering
set_option autoImplicit false

open Json (Value)

namespace Json

/-- The value of the member `name`, none if there is no such member; refuses two. -/
def field? (name : String) (members : List (Text × Value)) : Option (Option Value) :=
  match members.filter (·.1 == some name) with
  | [] => some none
  | [(_, value)] => some (some value)
  | _ => none

/-- Whether every key denotes a text. -/
def keysDenote (members : List (Text × Value)) : Bool := members.all (·.1.isSome)

/-- The text that a value is. -/
def string? : Value → Option String
  | .string text => text
  | _ => none

/-- The truth value that a value is. -/
def bool? : Value → Option Bool
  | .bool value => some value
  | _ => none

/-- The word that a value is: digits alone, in range. -/
def word? : Value → Option UInt64
  | .number literal => wordOfLiteral literal
  | _ => none

/-- The items of an array, each read by `read?`. -/
def array? {α : Type} (read? : Value → Option α) : Value → Option (List α)
  | .array items => items.mapM read?
  | _ => none

end Json

namespace Tally

open Json

/-- The tally as a JSON value. -/
def toJson (t : Tally) : Value :=
  .object [(some "num_solutions", .number (literalOfWord t.solutions)),
    (some "num_searches", .number (literalOfWord t.searches))]

/-- The tally that a JSON value describes. -/
def ofJson? : Value → Option Tally
  | .object members => do
    guard (keysDenote members)
    let solutions ← (← field? "num_solutions" members).bind word?
    let searches ← (← field? "num_searches" members).bind word?
    return ⟨solutions, searches⟩
  | .array [solutions, searches] => return ⟨← word? solutions, ← word? searches⟩
  | _ => none

/-- The tally that a JSON text describes. -/
def parse? (text : String) : Option Tally := (Json.parse? text).bind ofJson?

end Tally

namespace Checkpoint

open Json

/-- The checkpoint as a JSON value. -/
def toJson (c : Checkpoint) : Value :=
  .object [
    (some "solution", .array (c.solution.map fun row => .array (row.map fun name => .string (some name)))),
    (some "stats", c.tally.toJson),
    (some "reported", .bool c.reported)]

/-- The checkpoint that its fields describe, the last two of which may be missing. -/
def ofFields? (solution : Value) (tally reported : Option Value) : Option Checkpoint := do
  let solution ← array? (array? string?) solution
  let tally ← match tally with
    | some value => Tally.ofJson? value
    | none => some .zero
  let reported ← match reported with
    | some value => bool? value
    | none => some false
  return ⟨solution, tally, reported⟩

/-- The checkpoint that a JSON value describes. -/
def ofJson? : Value → Option Checkpoint
  | .object members => do
    guard (keysDenote members)
    let solution ← ← field? "solution" members
    let tally ← field? "stats" members
    let reported ← field? "reported" members
    ofFields? solution tally reported
  | .array [solution] => ofFields? solution none none
  | .array [solution, tally] => ofFields? solution (some tally) none
  | .array [solution, tally, reported] => ofFields? solution (some tally) (some reported)
  | _ => none

/-- The checkpoint that a JSON text describes. -/
def parse? (text : String) : Option Checkpoint := (Json.parse? text).bind ofJson?

end Checkpoint

end Covering
