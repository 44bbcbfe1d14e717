import Covering.Checkpoint.Format
import Covering.Script

/-!
# Checkpoint files

A checkpoint file keeps the checkpoint of a search on disk. It is read when it is opened, and while
the search reports its positions it is written anew whenever the interval has passed since the last
time.

A save writes the text to the temporary path beside the file and then renames that to the file, so
that a save cut short leaves the file as it was. If a save fails, what it left at the temporary
path is removed, and the search goes on.
-/

namespace Covering
set_option autoImplicit false

/-- A checkpoint, the path it is kept at, the seconds between two writes, and the time of the last
one in milliseconds. -/
structure CheckpointFile where
  path : Path
  interval : Nat
  savedAt : Nat
  checkpoint : Checkpoint
  deriving DecidableEq

namespace CheckpointFile

/-- Why a checkpoint file could not be read or changed. -/
inductive Failure where
  | file (error : FileError)
  /-- The text describes no checkpoint. -/
  | malformed
  deriving DecidableEq

/-- The text shown for a failure. -/
def Failure.message : Failure → String
  | .file error => "checkpoint I/O failed: " ++ error.message
  | .malformed => "checkpoint is not valid JSON: "

/-- A notice about a checkpoint file. -/
inductive Notice where
  | loaded (path : Path) (depth : Nat) (searches : UInt64)
  | saved (path : Path) (depth : Nat) (tally : Tally)
  | notSaved (path : Path) (failure : Failure)
  /-- What a failed save left could not be removed. -/
  | leftover (path : Path) (error : FileError)
  deriving DecidableEq

/-- The log line of a notice. -/
def Notice.line : Notice → LogLine
  | .loaded path depth searches =>
    let name := path.text
    ⟨.debug, s!"loaded checkpoint from {name}: depth {depth}, {searches} searches"⟩
  | .saved path depth tally =>
    let name := path.text
    let searches := tally.searches
    let solutions := tally.solutions
    ⟨.debug, s!"saved checkpoint to {name}: depth {depth}, {searches} searches, {solutions} solutions"⟩
  | .notSaved path failure =>
    let name := path.text
    let reason := failure.message
    ⟨.warning, s!"failed to save checkpoint to {name}: {reason}"⟩
  | .leftover path error =>
    let name := path.text
    let reason := error.message
    ⟨.debug, s!"could not remove {name}: {reason}"⟩

/-- The seconds between two writes, unless set otherwise. -/
def defaultInterval : Nat := 60

/-! ## Reading and writing -/

/-- Reads the file at `path`. A file that does not exist counts as a fresh checkpoint. -/
def load (path : Path) : Script (Except Failure CheckpointFile × List Notice) :=
  .read path fun answer =>
    match answer with
    | .ok text =>
      match Checkpoint.parse? text with
      | some c =>
        .now fun time => .done
          (.ok ⟨path, defaultInterval, time, c⟩,
            [.loaded path c.solution.length c.tally.searches])
      | none => .done (.error .malformed, [])
    | .error .notFound => .now fun time => .done (.ok ⟨path, defaultInterval, time, .fresh⟩, [])
    | .error e => .done (.error (.file e), [])

/-- Puts `text` in the place of the file at `path`. -/
def replace (path : Path) (text : String) : Script (Except FileError Unit) :=
  .write path.temporary text fun answer =>
    match answer with
    | .ok () => .rename path.temporary path .done
    | .error e => .done (.error e)

/-- Removes what a failed save left. -/
def discard (path : Path) : Script (List Notice) :=
  .remove path fun answer =>
    match answer with
    | .ok () => .done []
    | .error e => .done [.leftover path e]

/-- Writes the checkpoint now. -/
def save (f : CheckpointFile) : Script (Except Failure Unit × CheckpointFile × List Notice) := do
  match ← replace f.path f.checkpoint.toJson.pretty with
  | .ok () =>
    .now fun time => .done
      (.ok (), { f with savedAt := time },
        [.saved f.path f.checkpoint.solution.length f.checkpoint.tally])
  | .error e =>
    let notices ← discard f.path.temporary
    return (.error (.file e), f, notices)

/-- Whether a write is due at `time`. -/
def isDue (f : CheckpointFile) (time : Nat) : Bool := 1000 * f.interval ≤ time - f.savedAt

/-- Takes a report, and writes the checkpoint if that is due. -/
def store (f : CheckpointFile) (report : Report) : Script (CheckpointFile × List Notice) :=
  let f := { f with checkpoint := .ofReport report }
  .now fun time =>
    if f.isDue time then do
      let (result, f, notices) ← f.save
      match result with
      | .ok () => return (f, notices)
      | .error failure => return (f, notices ++ [.notSaved f.path failure])
    else .done (f, [])

/-- Removes the file of a search that is over. It need not exist. -/
def finish (f : CheckpointFile) : Script (Except Failure Unit) :=
  .remove f.path fun answer =>
    match answer with
    | .ok () => .done (.ok ())
    | .error .notFound => .done (.ok ())
    | .error e => .done (.error (.file e))

/-! ## Following a run -/

/-- Takes the reports among `events` in turn, adding all notices to `log`. -/
def follow (f : CheckpointFile) (log : Array LogLine) :
    List Event → Script (CheckpointFile × Array LogLine)
  | [] => .done (f, log)
  | .notice notice :: rest => f.follow (log.push notice.line) rest
  | .report report :: rest => do
    let (f, notices) ← f.store report
    f.follow (notices.foldl (fun log notice => log.push notice.line) log) rest

/-- What a watched call of `Run.next` comes to: its own result, the file, and what was said. -/
abbrev Watched := Except Fault (Option Solution × Run) × CheckpointFile × Array LogLine

/-- Goes on with `r` until a solution is found or the search ends, in `bound` steps, the file
taking the reports of each step before the next. -/
def seek : Nat → Run → CheckpointFile → Array LogLine → Script Watched
  | 0, _, f, log => .done (.error .unfinished, f, log)
  | bound + 1, r, f, log => do
    let ⟨events, turn⟩ := r.step
    let (f, log) ← f.follow log events
    match turn with
    | .error fault => return (.error fault, f, log)
    | .ok (.found solution r) => return (.ok (some solution, r), f, log)
    | .ok (.moved r) => seek bound r f log
    | .ok (.ended r) => return (.ok (none, r), f, log)

/-- The next solution of `r`, with the file taking its reports. -/
def next (f : CheckpointFile) (r : Run) : Script Watched := seek r.stepBound r f #[]

end CheckpointFile

end Covering
