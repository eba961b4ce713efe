import LineGrep.Alphabet

/-!
The printable form of one byte: printable ASCII stands for itself, save that the apostrophe and the
backslash follow a backslash, and every other byte is written with two hexadecimal digits.
-/

namespace LineGrep.Text

/-- The apostrophe, which closes a quoted byte. -/
def apostrophe : Char := '\x27'

/-- The backslash, which starts an escape. -/
def backslash : Char := '\x5c'

def hexPair (b : UInt8) : List Char :=
  [Nat.digitChar (b.toNat / 16), Nat.digitChar (b.toNat % 16)]

def escapeByte (b : UInt8) : List Char :=
  if charOf b = apostrophe ∨ charOf b = backslash then [backslash, charOf b]
  else if 0x20 ≤ b ∧ b ≤ 0x7e then [charOf b]
  else backslash :: 'x' :: hexPair b

end LineGrep.Text
