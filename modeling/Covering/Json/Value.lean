/-!
# JSON values

A value as a JSON text spells it: numbers by their literal, objects with their members in order,
repeated keys included.
-/

namespace Covering.Json
set_option autoImplicit false

/-- What a string literal denotes; none if it spells a surrogate without its partner. -/
abbrev Text := Option String

/-- A JSON value. -/
inductive Value where
  | null
  | bool (value : Bool)
  | number (literal : List Char)
  | string (text : Text)
  | array (items : List Value)
  | object (members : List (Text × Value))

end Covering.Json
