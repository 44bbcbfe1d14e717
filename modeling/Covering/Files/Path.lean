/-!
# Paths

A path is names between slashes; empty names lead nowhere. The name `.` stays where it is and `..`
leads up. The last name is the file name, slashes and names `.` after it not counted, unless it is
`..`; its extension begins at its last dot, unless that dot begins the name.
-/

namespace Covering
set_option autoImplicit false

/-- A path, as it is written. -/
structure Path where
  text : String
  deriving DecidableEq

namespace Path

/-- The characters up to the first `mark`, and those after it if there is one. -/
def cut (mark : Char) : List Char → List Char × Option (List Char)
  | [] => ([], none)
  | c :: rest =>
    if c = mark then ([], some rest)
    else
      let (before, after) := cut mark rest
      (c :: before, after)

/-- The pieces of a text between slashes. -/
def pieces : List Char → List (List Char)
  | [] => [[]]
  | c :: rest =>
    if c = '/' then [] :: pieces rest
    else match pieces rest with
      | [] => [[c]]
      | piece :: others => (c :: piece) :: others

/-- The names that a path leads through. -/
def names (p : Path) : List String :=
  ((pieces p.text.toList).filter (· ≠ [])).map String.ofList

/-- Whether a slash ends the path, which then asks for a directory. -/
def endsInSlash (p : Path) : Bool := p.text.toList.getLast? == some '/'

/-- Whether the last name is that of an entry, and not `.` or `..`. -/
def endsInName (p : Path) : Bool :=
  match p.names.getLast? with
  | some name => name ≠ "." && name ≠ ".."
  | none => false

/-! ## Extensions -/

/-- The characters of a path, read from the end, without the slashes and names `.` at its end. -/
def dropIdle : List Char → List Char
  | '/' :: rest => dropIdle rest
  | '.' :: '/' :: rest => dropIdle ('/' :: rest)
  | rest => rest

/-- What leads to the file name of a path, with its slash, and the file name, if it has one. -/
def splitName? (path : List Char) : List Char × Option (List Char) :=
  let (backward, before) := cut '/' (dropIdle path.reverse)
  let name := backward.reverse
  let parent := match before with
    | some before => (before.reverse ++ ['/'])
    | none => []
  (parent, if name = [] || name = ['.'] || name = ['.', '.'] then none else some name)

/-- A file name before and after its last dot, unless nothing stands before it. -/
def splitExtension (name : List Char) : List Char × Option (List Char) :=
  match cut '.' name.reverse with
  | (extension, some (c :: before)) => ((c :: before).reverse, some extension.reverse)
  | _ => (name, none)

/-- A path without as many characters at its end as its extension has, if it has one. -/
def shorten (path : List Char) : List Char :=
  match splitName? path with
  | (_, some name) =>
    match splitExtension name with
    | (_, some extension) => path.take (path.length - extension.length)
    | _ => path
  | _ => path

/-- A path with the extension `tmp` for its file name in place of its own, and nothing after it;
the path itself if it has no file name. -/
def withTmp (path : List Char) : List Char :=
  match splitName? path with
  | (parent, some name) => parent ++ (splitExtension name).1 ++ ".tmp".toList
  | _ => path

/-- The path beside `p` that a text is written to first. Its own extension goes before `tmp`
comes, so that a name such as `..json` leaves `..` and gets none. -/
def temporary (p : Path) : Path := ⟨String.ofList (withTmp (shorten p.text.toList))⟩

end Path

end Covering
