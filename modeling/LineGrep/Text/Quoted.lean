import LineGrep.Text.ByteEscape
import LineGrep.Text.Visible

/-!
Characters and texts in quotes, as messages show them. The null character, the tabulator, the line
feed, the carriage return, the backslash and the quote in use have short escapes. A hidden character
is written by its code point, and a visible one stands for itself.
-/

namespace LineGrep.Text

/-- The double quote, which closes a quoted text. -/
def quotationMark : Char := '\x22'

/-- A code point in lower-case hexadecimal digits between braces. -/
def escapeCode (n : Nat) : List Char :=
  [backslash, 'u', '\x7b'] ++ Nat.toDigits 16 n ++ ['\x7d']

/-- One character inside quotes of the given kind. -/
def escapeChar (quote c : Char) : List Char :=
  if c = quote ∨ c = backslash then [backslash, c]
  else if c = '\x00' then [backslash, '0']
  else if c = '\t' then [backslash, 't']
  else if c = '\n' then [backslash, 'n']
  else if c = '\r' then [backslash, 'r']
  else if isVisible c then [c]
  else escapeCode c.toNat

def quoteChar (c : Char) : List Char :=
  apostrophe :: escapeChar apostrophe c ++ [apostrophe]

def quoteText (s : List Char) : List Char :=
  quotationMark :: s.flatMap (escapeChar quotationMark) ++ [quotationMark]

end LineGrep.Text
