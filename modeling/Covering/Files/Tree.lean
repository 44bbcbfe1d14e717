import Covering.Files.Path
import Covering.Table

/-!
# File trees

A file tree holds directories and files, each at a location, the list of names that leads to it
from the root; the root is a directory. Paths are resolved from the root name by name; every name
must be looked up in a directory, and neither a name nor a path may be too long.

Reading, writing, renaming and removing a file fail where something on the way is missing or is
not a directory, and where the target is a directory. A write replaces what a file held, and a
renamed file replaces a file of the new name.
-/

namespace Covering
set_option autoImplicit false

/-- Why an operation on files failed. -/
inductive FileError where
  | isDirectory
  | notDirectory
  | notFound
  | nameTooLong
  /-- A path to be renamed has no file name. -/
  | busy
  /-- A path holds the character NUL. -/
  | nulInName
  /-- The bytes of the file are no text. -/
  | notText
  /-- Another reason, in the words of the system. -/
  | other (message : String)
  deriving DecidableEq

/-- The text shown for a file error. -/
def FileError.message : FileError → String
  | .isDirectory => "Is a directory (os error 21)"
  | .notDirectory => "Not a directory (os error 20)"
  | .notFound => "No such file or directory (os error 2)"
  | .nameTooLong => "File name too long (os error 36)"
  | .busy => "Device or resource busy (os error 16)"
  | .nulInName => "file name contained an unexpected NUL byte"
  | .notText => "stream did not contain valid UTF-8"
  | .other message => message

/-- What stands at a location. -/
inductive Entry where
  | directory
  | file (bytes : ByteArray)

/-- The names that lead to a place in a tree from its root. -/
abbrev Location := List String

/-- Directories and files by location. -/
structure FileTree where
  entries : List (Location × Entry)

namespace FileTree

/-- A tree with nothing but its root. -/
def empty : FileTree := ⟨[]⟩

/-- What stands at a location, if anything does. -/
def lookup (t : FileTree) : Location → Option Entry
  | [] => some .directory
  | location => (t.entries.find? (·.1 = location)).map (·.2)

/-- The tree without what stands at a location. -/
def erase (t : FileTree) (location : Location) : FileTree :=
  ⟨t.entries.filter (·.1 ≠ location)⟩

/-- The tree with an entry at a location. -/
def insert (t : FileTree) (location : Location) (entry : Entry) : FileTree :=
  ⟨(location, entry) :: (t.erase location).entries⟩

theorem lookup_erase {t : FileTree} {a b : Location} (h : b ≠ []) :
    (t.erase a).lookup b = if b = a then none else t.lookup b := by
  cases b with
  | nil => exact absurd rfl h
  | cons x xs =>
    simp only [lookup, erase, List.find?_filter]
    split
    · next e =>
      rw [List.find?_eq_none.2 (by simp [← e]), Option.map_none]
    · next e =>
      congr 2
      funext p
      by_cases hp : p.1 = x :: xs
      · simp [hp, e]
      · simp [hp]

theorem lookup_insert {t : FileTree} {a b : Location} {e : Entry} (h : b ≠ []) :
    (t.insert a e).lookup b = if b = a then some e else t.lookup b := by
  have he := lookup_erase (t := t) (a := a) h
  cases b with
  | nil => exact absurd rfl h
  | cons x xs =>
    by_cases hb : x :: xs = a
    · simp [lookup, insert, hb]
    · rw [if_neg hb] at he ⊢
      rw [← he]
      simp [lookup, insert, Ne.symm hb]

/-! ## Resolving paths -/

/-- The most bytes that a name may have. -/
def longestName : Nat := 255

/-- The most bytes that a path may have. -/
def longestPath : Nat := 4095

/-- Where `names` lead from `here`. What the last one leads to need not exist. -/
def walk (t : FileTree) (here : Location) : List String → Except FileError Location
  | [] => .ok here
  | name :: rest =>
    match t.lookup here with
    | some .directory =>
      if name = "." then t.walk here rest
      else if name = ".." then t.walk here.dropLast rest
      else if longestName < name.utf8ByteSize then .error .nameTooLong
      else t.walk (here ++ [name]) rest
    | some (.file _) => .error .notDirectory
    | none => .error .notFound

/-- The location of a path. The empty path has none. -/
def locate (t : FileTree) (p : Path) : Except FileError Location :=
  if '\x00' ∈ p.text.toList then .error .nulInName
  else if p.text.isEmpty then .error .notFound
  else if longestPath < p.text.utf8ByteSize then .error .nameTooLong
  else t.walk [] p.names

/-! ## Files -/

/-- The location and bytes of the file at `p`. -/
def fileAt (t : FileTree) (p : Path) : Except FileError (Location × ByteArray) := do
  let location ← t.locate p
  match t.lookup location with
  | none => throw .notFound
  | some .directory => throw .isDirectory
  | some (.file bytes) => if p.endsInSlash then throw .notDirectory else return (location, bytes)

/-- The text of the file at `p`. -/
def read (t : FileTree) (p : Path) : Except FileError String := do
  let (_, bytes) ← t.fileAt p
  match String.fromUTF8? bytes with
  | some text => return text
  | none => throw .notText

/-- The tree with `bytes` in the file at `p`, which may be a new one. -/
def writeBytes (t : FileTree) (p : Path) (bytes : ByteArray) : Except FileError FileTree := do
  let location ← t.locate p
  match t.lookup location with
  | some .directory => throw .isDirectory
  | _ => if p.endsInSlash then throw .isDirectory else return t.insert location (.file bytes)

/-- The tree with `text` in the file at `p`, which may be a new one. -/
def write (t : FileTree) (p : Path) (text : String) : Except FileError FileTree :=
  t.writeBytes p text.toUTF8

/-- The tree with the file at `source` moved to `target`. -/
def rename (t : FileTree) (source target : Path) : Except FileError FileTree := do
  let _ ← t.locate source
  let new ← t.locate target
  if !source.endsInName || !target.endsInName then throw .busy
  let (old, bytes) ← t.fileAt source
  if target.endsInSlash then throw .notDirectory
  match t.lookup new with
  | some .directory => throw .isDirectory
  | _ => return (t.erase old).insert new (.file bytes)

/-- The tree without the file at `p`. -/
def remove (t : FileTree) (p : Path) : Except FileError FileTree := do
  let (location, _) ← t.fileAt p
  return t.erase location

/-! ## Directories and listings -/

/-- The tree with a directory at `names` below `here`, and at every location on the way. -/
def makeDirectoriesFrom (t : FileTree) (here : Location) : List String → Except FileError FileTree
  | [] => .ok t
  | name :: rest =>
    let there :=
      if name = "." then here else if name = ".." then here.dropLast else here ++ [name]
    match t.lookup there with
    | some .directory => t.makeDirectoriesFrom there rest
    | some (.file _) => .error .notDirectory
    | none => (t.insert there .directory).makeDirectoriesFrom there rest

/-- The tree with a directory at `p`, and at every location on the way. -/
def makeDirectories (t : FileTree) (p : Path) : Except FileError FileTree :=
  t.makeDirectoriesFrom [] p.names

/-- A location and entry as a listing shows them: names between slashes, and a slash after a
directory. -/
def listed : Location × Entry → String
  | (location, .directory) => "/".intercalate location ++ "/"
  | (location, .file _) => "/".intercalate location

/-- Everything in the tree, in order of code points. -/
def listing (t : FileTree) : List String := sorted (fun a b => a ≤ b) (t.entries.map listed)

end FileTree

end Covering
