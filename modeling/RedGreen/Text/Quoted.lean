import RedGreen.Text.Escaped

set_option autoImplicit false

/-! # Quoted text

A quoted string stands between double quotes. Inside, the quote, the backslash and four control
characters have a two-character form; every other character that does not show as a glyph of its
own (`Escaped.needsEscape`) is written as its hexadecimal code point between braces; all else
stands for itself. -/

namespace RedGreen.Text

/-- The digits of a code point in hexadecimal, lower case, without leading zeros. -/
def hexDigits (n : Nat) : List Char := Nat.toDigits 16 n

/-- How one character is written between double quotes. -/
def quoteChar (c : Char) : List Char :=
  if c = '"' then ['\\', '"']
  else if c = '\\' then ['\\', '\\']
  else if c = '\n' then ['\\', 'n']
  else if c = '\t' then ['\\', 't']
  else if c = '\r' then ['\\', 'r']
  else if c.toNat = 0 then ['\\', '0']
  else if needsEscape c then ['\\', 'u', '{'] ++ hexDigits c.toNat ++ ['}']
  else [c]

/-- The characters of a quoted string. -/
def quoteChars (cs : List Char) : List Char := '"' :: (cs.flatMap quoteChar ++ ['"'])

/-- A string between double quotes, with its special characters escaped. -/
def quote (s : String) : String := String.ofList (quoteChars s.toList)

/-- Texts between brackets, separated by a comma and a blank. -/
def bracketed (items : List String) : String := "[" ++ ", ".intercalate items ++ "]"

end RedGreen.Text
