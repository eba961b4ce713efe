/-!
The characters with a meaning of their own in a pattern. Every other character stands for itself,
and there are no escapes.
-/

namespace LineGrep.Pattern

/-- The characters that give a pattern its structure. -/
def isStructural (c : Char) : Bool :=
  c = '*' || c = '|' || c = '(' || c = ')'

/-- The wildcard, which stands for any one character. -/
def wildcard : Char := '.'

/-- The wildcard and the structural characters. -/
def isOperator (c : Char) : Bool :=
  c = wildcard || isStructural c

end LineGrep.Pattern
