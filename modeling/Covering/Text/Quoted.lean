import Covering.Text.Unseen

/-!
# Names in quotes

A name shown in a message stands between double quotes. A quote, a backslash, a line feed, a
carriage return, a tab and NUL are escaped by a letter; any other character without a shape of its
own by its code point in hexadecimal; every other character stands for itself.
-/

namespace Covering.Text
set_option autoImplicit false

/-- The hexadecimal digits of `n`, in lower case and without leading zeros. -/
def hexDigits (n : Nat) : List Char := Nat.toDigits 16 n

/-- How `c` is written between quotes. -/
def quotedChar (c : Char) : List Char :=
  if c = '"' then ['\\', '"']
  else if c = '\\' then ['\\', '\\']
  else if c = '\n' then ['\\', 'n']
  else if c = '\r' then ['\\', 'r']
  else if c = '\t' then ['\\', 't']
  else if c = '\x00' then ['\\', '0']
  else if isUnseen c then ['\\', 'u', '\x7b'] ++ hexDigits c.toNat ++ ['\x7d']
  else [c]

/-- `s` between quotes, escaped. -/
def quoted (s : String) : String :=
  String.ofList ('"' :: s.toList.flatMap quotedChar ++ ['"'])

end Covering.Text
