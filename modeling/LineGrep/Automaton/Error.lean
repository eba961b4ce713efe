import LineGrep.Text.Quoted

/-!
What can stop an automaton, and what is said of it.
-/

namespace LineGrep

inductive AutomatonError where
  /-- The automaton has no cursor, since it was never made deterministic. -/
  | notDeterministic
  | characterOutOfRange (c : Char)
  | noTransition
  deriving DecidableEq, Repr

def AutomatonError.message : AutomatonError → List Char
  | notDeterministic => "The automaton needs to be deterministic".toList
  | characterOutOfRange c =>
    "Character ".toList ++ Text.quoteChar c ++ " is outside the supported alphabet".toList
  | noTransition => "Cannot match the input".toList

end LineGrep
