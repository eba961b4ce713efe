import LineGrep.Alphabet
import LineGrep.Pattern.Operator
import LineGrep.Regex.Basic

/-!
Writing a tree as a pattern. Every operand stands in parentheses, so the pattern has one reading.
-/

namespace LineGrep.Regex

def group (pattern : List Char) : List Char :=
  '(' :: pattern ++ [')']

/-- The pattern of a tree. There is none if the character of a literal is an operator. -/
def toPattern? : Regex → Option (List Char)
  | literal b => if Pattern.isOperator (charOf b) then none else some [charOf b]
  | dot => some [Pattern.wildcard]
  | star body => body.toPattern?.map fun p => group p ++ ['*']
  | cat left right => do
    let l ← left.toPattern?
    let r ← right.toPattern?
    return group l ++ group r
  | alt left right => do
    let l ← left.toPattern?
    let r ← right.toPattern?
    return group l ++ '|' :: group r

end LineGrep.Regex
