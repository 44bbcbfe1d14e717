import Covering.Run

/-!
# Calls of a caller

Whoever holds a run asks it for solutions, and for the texts of solutions. A call that fails leaves
the run in the middle of a step, from where it can still be closed. It fails where a level begins if
a counter is full, and leaves `Run.interrupted`. If somebody takes the reports, it also fails at a
report where this listener breaks off, and leaves `Run.reporting`: `Run.performWith`. With nobody to
break off the calls are `Run.perform`.
-/

namespace Covering
set_option autoImplicit false

namespace Run

/-! ## Runs given up in the middle of a step -/

/-- The run as it enters the level below the row at `slot` of `column`. -/
def entering (r : Run) (column slot : Nat) (replayed : Bool) : Except Fault Run := do
  let mesh ← r.mesh.coverMates column slot
  return { r with mesh, branches := ⟨column, slot, replayed⟩ :: r.branches.tail }

/-- The run as its next step leaves it if it fails: a level was to begin. -/
def interrupted (r : Run) : Run :=
  if r.started then
    match r.branches with
    | [] => r
    | branch :: _ =>
      let column := branch.column
      let s := r.undo branch
      let candidates := (s.mesh.lane column).ring.after branch.slot
      let entered := match s.pending with
        | wanted :: later =>
          match candidates.find? fun slot =>
            s.mesh.labelsOfRow (s.mesh.rowAt column slot) == wanted with
          | some slot =>
            { s with chosen := wanted :: s.chosen, pending := later }.entering column slot true
          | none => .ok r
        | [] =>
          match candidates with
          | [] => .ok r
          | slot :: _ =>
            let chosen := s.mesh.labelsOfRow (s.mesh.rowAt column slot) :: s.chosen
            { s with chosen }.entering column slot false
      match entered with
      | .ok s => s
      | .error _ => r
  else { r with started := true }

/-- The run in the middle of its next step, as this makes its report: the next row stands among the
rows, but it is not covered yet, and the innermost branch, whose choice has been undone, still names
the row before it. -/
def reporting (r : Run) : Run :=
  match r.branches with
  | [] => r
  | branch :: _ =>
    let s := r.undo branch
    match (s.mesh.lane branch.column).ring.after branch.slot with
    | [] => r
    | slot :: _ =>
      let labels := s.mesh.labelsOfRow (s.mesh.rowAt branch.column slot)
      -- At a branch that names no row the new one stands where the saved path would go on.
      if branch.slot = 0 then { s with pending := [labels] }
      else { s with chosen := labels :: s.chosen }

/-! ## Calls without a listener -/

/-- The run as a call of `next` leaves it that fails within `bound` steps. -/
def stopped : Nat → Run → Run
  | 0, r => r
  | bound + 1, r =>
    match r.step.turn with
    | .ok (.moved r) => stopped bound r
    | _ => r.interrupted

/-- Something that the caller of a run asks for. -/
inductive Call where
  | next
  | format (solution : Solution)
  deriving DecidableEq

/-- What the caller gets. -/
inductive Answer where
  | next (solution : Option Solution)
  | format (text : String)
  deriving DecidableEq

/-- Answers a call, or fails and leaves the run as it is then. -/
def answer (r : Run) : Call → Except (Fault × Run) (Answer × Run)
  | .next =>
    match r.next.2 with
    | .ok (solution, r) => .ok (.next solution, r)
    | .error fault => .error (fault, stopped r.stepBound r)
  | .format solution =>
    match r.format solution with
    | .ok (text, r) => .ok (.format text, r)
    | .error fault => .error (fault, r)

/-- Answers calls one after the other. -/
def perform : List Call → Run → Except (Fault × Run) (List Answer × Run)
  | [], r => .ok ([], r)
  | call :: calls, r => do
    let (first, r) ← r.answer call
    let (answers, r) ← perform calls r
    return (first :: answers, r)

end Run

/-! ## Calls with a listener -/

/-- Somebody who takes the reports of a run and keeps a `σ`. The `σ` after a report is an error if
the listener breaks off there. -/
structure Listener (σ : Type) where
  hear : σ → Report → Except σ σ

namespace Listener

variable {σ : Type}

/-- Takes the reports among `events` in turn, until it breaks off. -/
def hearAll (l : Listener σ) (kept : σ) : List Event → Except σ σ
  | [] => .ok kept
  | .notice _ :: events => l.hearAll kept events
  | .report report :: events =>
    match l.hear kept report with
    | .ok kept => l.hearAll kept events
    | .error kept => .error kept

end Listener

namespace Run

variable {σ : Type}

/-- Goes on like `seek`, with `l` taking the reports. If it fails it leaves the run as it is then. -/
def seekWith (l : Listener σ) : Nat → Run → σ → Except (Fault × Run) (Option Solution × Run) × σ
  | 0, r, kept => (.error (.unfinished, r), kept)
  | bound + 1, r, kept =>
    match l.hearAll kept r.step.events with
    | .error kept => (.error (.brokenOff, r.reporting), kept)
    | .ok kept =>
      match r.step.turn with
      | .error fault => (.error (fault, r.interrupted), kept)
      | .ok (.found solution r) => (.ok (some solution, r), kept)
      | .ok (.moved r) => seekWith l bound r kept
      | .ok (.ended r) => (.ok (none, r), kept)

/-- Answers a call while `l` takes the reports. -/
def answerWith (l : Listener σ) (r : Run) (kept : σ) :
    Call → Except (Fault × Run) (Answer × Run) × σ
  | .next =>
    let (result, kept) := seekWith l r.stepBound r kept
    (result.map fun (solution, r) => (.next solution, r), kept)
  | .format solution => (r.answer (.format solution), kept)

/-- Answers calls one after the other while `l` takes the reports. -/
def performWith (l : Listener σ) : List Call → Run → σ → Except (Fault × Run) (List Answer × Run) × σ
  | [], r, kept => (.ok ([], r), kept)
  | call :: calls, r, kept =>
    match r.answerWith l kept call with
    | (.error failed, kept) => (.error failed, kept)
    | (.ok (first, r), kept) =>
      let (result, kept) := performWith l calls r kept
      (result.map fun (answers, r) => (first :: answers, r), kept)

end Run

end Covering
