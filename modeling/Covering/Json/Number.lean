/-!
# Number literals

A number literal is an optional minus sign, an integer without leading zeros, an optional fraction
and an optional exponent. A counter is written with digits alone.
-/

namespace Covering.Json
set_option autoImplicit false

/-- Whether a character is one of the digits 0 to 9. -/
def isDigit (c : Char) : Bool := '0' ≤ c && c ≤ '9'

/-- Whether a character can occur in a number literal. -/
def isNumberChar (c : Char) : Bool :=
  isDigit c || c = '-' || c = '+' || c = '.' || c = 'e' || c = 'E'

/-- One or more digits. -/
def isDigits (cs : List Char) : Bool := !cs.isEmpty && cs.all isDigit

/-- An integer without sign: zero, or digits that do not begin with one. -/
def isInteger : List Char → Bool
  | ['0'] => true
  | '0' :: _ => false
  | cs => isDigits cs

/-- What follows the exponent mark: digits, maybe signed. -/
def isExponent : List Char → Bool
  | '+' :: cs => isDigits cs
  | '-' :: cs => isDigits cs
  | cs => isDigits cs

/-- Whether a character marks an exponent. -/
def isExponentMark (c : Char) : Bool := c = 'e' || c = 'E'

/-- A fraction with its point, or nothing. -/
def isFraction : List Char → Bool
  | [] => true
  | '.' :: cs => isDigits cs
  | _ => false

/-- A number literal without its sign: an integer up to the point or the exponent mark, a fraction
up to the exponent mark, an exponent. -/
def isUnsigned (cs : List Char) : Bool :=
  let mantissa := cs.takeWhile (!isExponentMark ·)
  let integer := mantissa.takeWhile (· ≠ '.')
  isInteger integer && isFraction (mantissa.drop integer.length) &&
    match cs.drop mantissa.length with
    | [] => true
    | _ :: exponent => isExponent exponent

/-- A number literal. -/
def isNumber : List Char → Bool
  | '-' :: cs => isUnsigned cs
  | cs => isUnsigned cs

/-- The value of a digit. -/
def digitValue (c : Char) : Nat := c.toNat - '0'.toNat

/-- The natural number that digits denote. -/
def natOfDigits (cs : List Char) : Nat := cs.foldl (fun n c => n * 10 + digitValue c) 0

/-- The word that a literal of digits alone denotes, if it is in range. -/
def wordOfLiteral (literal : List Char) : Option UInt64 :=
  let n := natOfDigits literal
  if isDigits literal && n < UInt64.size then some (UInt64.ofNat n) else none

/-- The shortest literal of a word. -/
def literalOfWord (w : UInt64) : List Char := Nat.toDigits 10 w.toNat

end Covering.Json
