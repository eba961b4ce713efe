import LineGrep.Text.Quoted

/-!
What can be wrong with a pattern, and what is said of it.
-/

namespace LineGrep.Pattern

inductive ParseError where
  | empty
  | unsupportedCharacter (c : Char)
  | missingLeftParen
  | missingRightParen
  | malformedGroup
  /-- Nothing stands before a star that it could repeat. -/
  | starWithoutOperand
  | missingLeftOperand
  | missingRightOperand
  | multipleRoots
  deriving DecidableEq, Repr

/-- The text of an error that concerns the structure of a pattern. -/
def ParseError.structural (what : String) : List Char :=
  "Error during parsing: ".toList ++ what.toList

def ParseError.message : ParseError → List Char
  | empty => "Regex cannot be empty".toList
  | unsupportedCharacter c =>
    "Unsupported character in regex: ".toList ++ Text.quoteChar c ++
      " (alphabet is single bytes)".toList
  | missingLeftParen => structural "missing '('"
  | missingRightParen => structural "missing ')'"
  | malformedGroup => structural "malformed group"
  | starWithoutOperand => structural "'*' needs an operand"
  | missingLeftOperand => structural "missing left operand of '|'"
  | missingRightOperand => structural "missing right operand of '|'"
  | multipleRoots => structural "multiple roots"

end LineGrep.Pattern
