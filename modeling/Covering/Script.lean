import Covering.Files.Tree

/-!
# Scripts

A script is a program that works on files, looks at a clock and prints lines, with what it does
next given for every answer. It does nothing by itself: `Script.run` carries it out in a world, a
value that holds a file tree, a clock and the lines printed.
-/

namespace Covering
set_option autoImplicit false

/-- A program that ends with a value. -/
inductive Script (α : Type) where
  | done (value : α)
  | read (path : Path) (next : Except FileError String → Script α)
  | write (path : Path) (text : String) (next : Except FileError Unit → Script α)
  | rename (source target : Path) (next : Except FileError Unit → Script α)
  | remove (path : Path) (next : Except FileError Unit → Script α)
  /-- The time in milliseconds, from some fixed point on. -/
  | now (next : Nat → Script α)
  | print (line : String) (next : Unit → Script α)

/-- What a script works on. The clock gives the time of each reading, `readings` counts them, and
the lines are listed last first. -/
structure World where
  files : FileTree
  clock : Nat → Nat
  readings : Nat
  printed : List String

namespace World

/-- A world with these files, in which time stands still. -/
def still (files : FileTree) : World := ⟨files, fun _ => 0, 0, []⟩

/-- The lines printed, in order. -/
def lines (w : World) : List String := w.printed.reverse

/-- The world after a change of its files, unless that failed. -/
def change (w : World) : Except FileError FileTree → Except FileError Unit × World
  | .ok files => (.ok (), { w with files })
  | .error e => (.error e, w)

end World

namespace Script

variable {α β : Type}

/-- Goes on with `f` after `s`. -/
def bind (s : Script α) (f : α → Script β) : Script β :=
  match s with
  | done value => f value
  | read path next => read path fun answer => (next answer).bind f
  | write path text next => write path text fun answer => (next answer).bind f
  | rename source target next => rename source target fun answer => (next answer).bind f
  | remove path next => remove path fun answer => (next answer).bind f
  | now next => now fun time => (next time).bind f
  | print line next => print line fun answer => (next answer).bind f

instance : Monad Script where
  pure := done
  bind := bind

/-- Carries a script out. -/
def run : Script α → World → α × World
  | done value, w => (value, w)
  | read path next, w => (next (w.files.read path)).run w
  | write path text next, w =>
    let (answer, w) := w.change (w.files.write path text)
    (next answer).run w
  | rename source target next, w =>
    let (answer, w) := w.change (w.files.rename source target)
    (next answer).run w
  | remove path next, w =>
    let (answer, w) := w.change (w.files.remove path)
    (next answer).run w
  | now next, w => (next (w.clock w.readings)).run { w with readings := w.readings + 1 }
  | print line next, w => (next ()).run { w with printed := line :: w.printed }

theorem bind_assoc {γ : Type} (s : Script α) (f : α → Script β) (g : β → Script γ) :
    (s.bind f).bind g = s.bind fun a => (f a).bind g := by
  induction s with
  | done => rfl
  | _ => simp_all [bind]

/-- A script goes on in the world that its first part leaves. -/
theorem run_bind (s : Script α) (f : α → Script β) (w : World) :
    (s.bind f).run w = (f (s.run w).1).run (s.run w).2 := by
  induction s generalizing w with
  | done => rfl
  | _ => simp_all [bind, run]

end Script

end Covering
