import Covering.Json.Number
import Covering.Json.Value

/-!
# JSON tokens

A text is read character by character into tokens. Only space, tab, line feed and carriage return
may stand between tokens. Inside a string a character below U+0020 must be escaped; an escaped
surrogate must meet its partner for the string to denote a text.
-/

namespace Covering.Json
set_option autoImplicit false

/-- A token of a JSON text. -/
inductive Token where
  | leftBracket
  | rightBracket
  | leftBrace
  | rightBrace
  | comma
  | colon
  | null
  | bool (value : Bool)
  | number (literal : List Char)
  | string (text : Text)
  deriving DecidableEq

/-- A part of a string: a character, or a surrogate spelt by an escape. -/
inductive Piece where
  | char (c : Char)
  | surrogate (code : Nat)
  deriving DecidableEq

/-- The characters that pieces denote: a leading surrogate and the trailing one right after it are
one character; surrogates occur no other way. -/
def charsOfPieces : List Piece → Option (List Char)
  | [] => some []
  | .char c :: rest => (charsOfPieces rest).map (c :: ·)
  | .surrogate lead :: .surrogate trail :: rest =>
    if lead < 0xDC00 ∧ 0xDC00 ≤ trail then
      let c := Char.ofNat (0x10000 + (lead - 0xD800) * 0x400 + (trail - 0xDC00))
      (charsOfPieces rest).map (c :: ·)
    else none
  | .surrogate _ :: _ => none

/-- The piece that four hexadecimal digits spell. -/
def pieceOfCode (code : Nat) : Piece :=
  if 0xD800 ≤ code ∧ code < 0xE000 then .surrogate code else .char (Char.ofNat code)

/-- The value of a hexadecimal digit. -/
def hexValue (c : Char) : Option Nat :=
  if isDigit c then some (digitValue c)
  else if 'a' ≤ c ∧ c ≤ 'f' then some (c.toNat - 'a'.toNat + 10)
  else if 'A' ≤ c ∧ c ≤ 'F' then some (c.toNat - 'A'.toNat + 10)
  else none

/-- The character that stands for `c` after a backslash. -/
def unescape (c : Char) : Option Char :=
  match c with
  | '"' => some '"'
  | '\\' => some '\\'
  | '/' => some '/'
  | 'b' => some '\x08'
  | 'f' => some '\x0c'
  | 'n' => some '\n'
  | 'r' => some '\r'
  | 't' => some '\t'
  | _ => none

/-- Whether a character may stand between tokens. -/
def isBlank (c : Char) : Bool := c = ' ' || c = '\t' || c = '\n' || c = '\r'

/-- Whether a character can occur in a word such as `true`. -/
def isWordChar (c : Char) : Bool := 'a' ≤ c && c ≤ 'z'

/-- The token of a word. -/
def tokenOfWord (word : List Char) : Option Token :=
  if word = "null".toList then some .null
  else if word = "true".toList then some (.bool true)
  else if word = "false".toList then some (.bool false)
  else none

/-- The token of a run of number characters. -/
def tokenOfNumber (literal : List Char) : Option Token :=
  if isNumber literal then some (.number literal) else none

/-- The token of a string literal with these pieces. -/
def tokenOfPieces (pieces : List Piece) : Token :=
  .string ((charsOfPieces pieces).map String.ofList)

/-- The token that is a single mark. -/
def tokenOfMark (c : Char) : Option Token :=
  match c with
  | '[' => some .leftBracket
  | ']' => some .rightBracket
  | '\x7b' => some .leftBrace
  | '\x7d' => some .rightBrace
  | ',' => some .comma
  | ':' => some .colon
  | _ => none

/-- Where in a token the reading stands. Characters and pieces are listed last first. -/
inductive Place where
  | between
  | word (letters : List Char)
  | number (literal : List Char)
  | string (pieces : List Piece)
  | escape (pieces : List Piece)
  | code (pieces : List Piece) (digits value : Nat)
  deriving DecidableEq

/-- A reading in progress, with the tokens read so far, last first. -/
structure Lexer where
  place : Place
  tokens : List Token
  deriving DecidableEq

namespace Lexer

/-- Before the first character. -/
def start : Lexer := ⟨.between, []⟩

/-- Takes a character between tokens, after `tokens`. -/
def begin? (tokens : List Token) (c : Char) : Option Lexer :=
  if isBlank c then some ⟨.between, tokens⟩
  else if c = '"' then some ⟨.string [], tokens⟩
  else if c = '-' || isDigit c then some ⟨.number [c], tokens⟩
  else if isWordChar c then some ⟨.word [c], tokens⟩
  else (tokenOfMark c).map fun token => ⟨.between, token :: tokens⟩

/-- Takes a character. -/
def push? (l : Lexer) (c : Char) : Option Lexer :=
  match l.place with
  | .between => begin? l.tokens c
  | .word letters =>
    if isWordChar c then some { l with place := .word (c :: letters) }
    else (tokenOfWord letters.reverse).bind fun token => begin? (token :: l.tokens) c
  | .number literal =>
    if isNumberChar c then some { l with place := .number (c :: literal) }
    else (tokenOfNumber literal.reverse).bind fun token => begin? (token :: l.tokens) c
  | .string pieces =>
    if c = '"' then some ⟨.between, tokenOfPieces pieces.reverse :: l.tokens⟩
    else if c = '\\' then some { l with place := .escape pieces }
    else if c < ' ' then none
    else some { l with place := .string (.char c :: pieces) }
  | .escape pieces =>
    if c = 'u' then some { l with place := .code pieces 0 0 }
    else (unescape c).map fun meant => { l with place := .string (.char meant :: pieces) }
  | .code pieces digits value =>
    (hexValue c).map fun digit =>
      let value := value * 16 + digit
      if digits = 3 then { l with place := .string (pieceOfCode value :: pieces) }
      else { l with place := .code pieces (digits + 1) value }

/-- The tokens read, if the text may end here. -/
def finish? (l : Lexer) : Option (List Token) :=
  match l.place with
  | .between => some l.tokens.reverse
  | .word letters => (tokenOfWord letters.reverse).map fun token => (token :: l.tokens).reverse
  | .number literal => (tokenOfNumber literal.reverse).map fun token => (token :: l.tokens).reverse
  | _ => none

end Lexer

/-- The tokens of a text. -/
def tokens? (text : List Char) : Option (List Token) :=
  (text.foldlM Lexer.push? Lexer.start).bind Lexer.finish?

end Covering.Json
