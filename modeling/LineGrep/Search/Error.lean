import LineGrep.Pattern.Error

/-!
What can be wrong with a search, and what is said of it.
-/

namespace LineGrep

inductive SearchError where
  | parse (e : Pattern.ParseError)
  /-- The pattern is to be searched as a literal and has structure. -/
  | notLiteral (pattern : List Char)
  deriving DecidableEq, Repr

namespace SearchError

def message : SearchError → List Char
  | parse e => e.message
  | notLiteral pattern =>
    "Pattern ".toList ++ Text.quoteText pattern ++ " is not a literal and cannot use KMP".toList

def source : SearchError → Option Pattern.ParseError
  | parse e => some e
  | notLiteral _ => none

end SearchError

end LineGrep
