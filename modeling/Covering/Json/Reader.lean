import Covering.Json.Token

/-!
# Reading JSON values

A value is read from its tokens with the containers that are still open as a stack, so that no
nesting is too deep. `parse?` reads a whole text: one value, and blanks around it.
-/

namespace Covering.Json
set_option autoImplicit false

/-- A container that is still open, with what it holds so far, last first. -/
inductive Open where
  | array (items : List Value)
  | object (members : List (Text × Value))
  /-- An object whose next member has this key. -/
  | member (members : List (Text × Value)) (key : Text)

/-- What may come next. -/
inductive Expect where
  | value
  | valueOrEnd
  | key
  | keyOrEnd
  | colon
  | commaOrEnd
  /-- The text may only end. -/
  | nothing (value : Value)

/-- A reading in progress; the innermost container comes first. -/
structure Reader where
  expect : Expect
  stack : List Open

namespace Reader

/-- Before the first token. -/
def start : Reader := ⟨.value, []⟩

/-- Puts a complete value where it belongs. -/
def put? (value : Value) : List Open → Option Reader
  | [] => some ⟨.nothing value, []⟩
  | .array items :: rest => some ⟨.commaOrEnd, .array (value :: items) :: rest⟩
  | .member members key :: rest => some ⟨.commaOrEnd, .object ((key, value) :: members) :: rest⟩
  | .object _ :: _ => none

/-- Takes a token that begins a value. -/
def begin? (stack : List Open) : Token → Option Reader
  | .leftBracket => some ⟨.valueOrEnd, .array [] :: stack⟩
  | .leftBrace => some ⟨.keyOrEnd, .object [] :: stack⟩
  | .null => put? .null stack
  | .bool value => put? (.bool value) stack
  | .number literal => put? (.number literal) stack
  | .string text => put? (.string text) stack
  | _ => none

/-- Takes a key. -/
def key? (stack : List Open) (token : Token) : Option Reader :=
  match stack, token with
  | .object members :: rest, .string key => some ⟨.colon, .member members key :: rest⟩
  | _, _ => none

/-- Closes the innermost container. -/
def close? (stack : List Open) (token : Token) : Option Reader :=
  match stack, token with
  | .array items :: rest, .rightBracket => put? (.array items.reverse) rest
  | .object members :: rest, .rightBrace => put? (.object members.reverse) rest
  | _, _ => none

/-- Takes a comma inside the innermost container. -/
def comma? : List Open → Option Reader
  | .array items :: rest => some ⟨.value, .array items :: rest⟩
  | .object members :: rest => some ⟨.key, .object members :: rest⟩
  | _ => none

/-- Takes a token. -/
def push? (r : Reader) (token : Token) : Option Reader :=
  match r.expect with
  | .value => begin? r.stack token
  | .valueOrEnd => if token = .rightBracket then close? r.stack token else begin? r.stack token
  | .key => key? r.stack token
  | .keyOrEnd => if token = .rightBrace then close? r.stack token else key? r.stack token
  | .colon => if token = .colon then some ⟨.value, r.stack⟩ else none
  | .commaOrEnd => if token = .comma then comma? r.stack else close? r.stack token
  | .nothing _ => none

/-- The value read, if the text may end here. -/
def finish? (r : Reader) : Option Value :=
  match r.expect with
  | .nothing value => some value
  | _ => none

end Reader

/-- The value that tokens spell. -/
def ofTokens? (tokens : List Token) : Option Value :=
  (tokens.foldlM Reader.push? Reader.start).bind Reader.finish?

/-- The value that a text spells. -/
def parse? (text : String) : Option Value := (tokens? text.toList).bind ofTokens?

end Covering.Json
