import Covering.Json.Value

/-!
# Writing JSON values

A value is written on one line without blanks, or with every item and member on a line of its own,
indented by two spaces a level. In strings only the quote, the backslash and the characters below
U+0020 are escaped.
-/

namespace Covering.Json
set_option autoImplicit false

/-- A digit of a number below 16, in lower case. -/
def hexDigit (n : Nat) : Char := Nat.digitChar (n % 16)

/-- How a character is written in a string. -/
def escapedChar (c : Char) : List Char :=
  if c = '"' then ['\\', '"']
  else if c = '\\' then ['\\', '\\']
  else if c = '\x08' then ['\\', 'b']
  else if c = '\x0c' then ['\\', 'f']
  else if c = '\n' then ['\\', 'n']
  else if c = '\r' then ['\\', 'r']
  else if c = '\t' then ['\\', 't']
  else if c < ' ' then ['\\', 'u', '0', '0', hexDigit (c.toNat / 16), hexDigit c.toNat]
  else [c]

/-- A string literal; without a text, one that spells a surrogate without its partner. -/
def writeText (text : Text) : List Char :=
  let inner := match text with
    | some s => s.toList.flatMap escapedChar
    | none => "\\ud800".toList
  '"' :: inner ++ ['"']

/-- Whether a value is written on one line or spread over lines, and then how deep it stands. -/
inductive Layout where
  | line
  | spread (depth : Nat)

namespace Layout

/-- The layout one level further in. -/
def deeper : Layout → Layout
  | line => line
  | spread depth => spread (depth + 1)

/-- What stands before an item or a closing mark. -/
def gap : Layout → List Char
  | line => []
  | spread depth => '\n' :: List.replicate (2 * depth) ' '

/-- What stands between a key and its value. -/
def colon : Layout → List Char
  | line => [':']
  | spread _ => [':', ' ']

end Layout

/-- A container: its items, each on a new line of the inner layout, between two marks. -/
def writeItems (layout : Layout) (left right : Char) (items : List (List Char)) : List Char :=
  match items with
  | [] => [left, right]
  | first :: rest =>
    left :: layout.deeper.gap ++ first ++
      rest.flatMap (fun item => ',' :: layout.deeper.gap ++ item) ++ layout.gap ++ [right]

mutual

/-- A value in the given layout. -/
def write (layout : Layout) : Value → List Char
  | .null => "null".toList
  | .bool true => "true".toList
  | .bool false => "false".toList
  | .number literal => literal
  | .string text => writeText text
  | .array items => writeItems layout '[' ']' (writeEach layout.deeper items)
  | .object members => writeItems layout '\x7b' '\x7d' (writeMembers layout.deeper members)

/-- Each value of a list. -/
def writeEach (layout : Layout) : List Value → List (List Char)
  | [] => []
  | value :: rest => write layout value :: writeEach layout rest

/-- Each member of an object. -/
def writeMembers (layout : Layout) : List (Text × Value) → List (List Char)
  | [] => []
  | (key, value) :: rest =>
    (writeText key ++ layout.colon ++ write layout value) :: writeMembers layout rest

end

namespace Value

/-- A value on one line. -/
def compact (v : Value) : String := String.ofList (write .line v)

/-- A value spread over lines. -/
def pretty (v : Value) : String := String.ofList (write (.spread 0) v)

end Value

end Covering.Json
