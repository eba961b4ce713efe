/-!
Numbers in decimal digits. Main statement: different numbers have different digits.
-/

namespace LineGrep.Text

def decimal (n : Nat) : List Char :=
  Nat.toDigits 10 n

/-- The decimal digits of an integer, after a minus sign if it is negative. -/
def signedDecimal : Int → List Char
  | .ofNat n => decimal n
  | .negSucc n => '-' :: decimal (n + 1)

/-- Parts with a comma and a space between each two. -/
def commaSeparated (parts : List (List Char)) : List Char :=
  [',', ' '].intercalate parts

theorem decimal_inj {m n : Nat} : decimal m = decimal n ↔ m = n := by
  refine ⟨fun h => ?_, fun h => h ▸ rfl⟩
  have := congrArg (Nat.ofDigitChars 10 · 0) h
  simpa [decimal, Nat.ofDigitChars_toDigits] using this

end LineGrep.Text
