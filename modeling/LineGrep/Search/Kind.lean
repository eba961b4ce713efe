/-!
The ways to search a line for a pattern.
-/

namespace LineGrep

inductive SearchKind where
  /-- As a literal if the pattern allows it, and by an automaton otherwise. -/
  | auto
  /-- By a deterministic automaton, from each place of the line. -/
  | automaton
  /-- As a literal, with the jumps of Knuth, Morris and Pratt. -/
  | kmp
  deriving DecidableEq, Repr

def SearchKind.name : SearchKind → List Char
  | auto => "Auto".toList
  | automaton => "Automaton".toList
  | kmp => "Kmp".toList

end LineGrep
