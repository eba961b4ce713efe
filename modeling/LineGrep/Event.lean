import LineGrep.Automaton.Error
import LineGrep.Automaton.StateSet
import LineGrep.Search.Kind

/-!
What the library reports while it works: the sizes of the automata, the sets behind the states of a
deterministic one, the choice of a search and the lines that could not be searched.
-/

namespace LineGrep

inductive Severity where
  | trace
  | debug
  | warning
  deriving DecidableEq, Repr

/-- Something worth a report. -/
inductive Event where
  | nfaBuilt (pattern : List Char) (states : Nat)
  | subsetNumbered (id : Nat) (set : StateSet)
  | dfaBuilt (pattern : List Char) (states : Nat)
  | searchChosen (pattern : List Char) (kind : SearchKind)
  | lineSkipped (number : Nat) (error : AutomatonError)
  deriving DecidableEq, Repr

/-- A value with the events on the way to it, in their order. -/
structure Reported (α : Type) where
  value : α
  events : List Event

namespace Event

def severity : Event → Severity
  | subsetNumbered .. => .trace
  | nfaBuilt .. | dfaBuilt .. | searchChosen .. => .debug
  | lineSkipped .. => .warning

def sizeText (what : String) (pattern : List Char) (states : Nat) : List Char :=
  what.toList ++ " for ".toList ++ Text.quoteText pattern ++ ": ".toList ++ Text.decimal states ++
    " states".toList

def text : Event → List Char
  | nfaBuilt pattern states => sizeText "NFA" pattern states
  | dfaBuilt pattern states => sizeText "DFA" pattern states
  | subsetNumbered id set =>
    "DFA state ".toList ++ Text.decimal id ++ " = NFA states ".toList ++ set.text
  | searchChosen pattern kind =>
    "Searching for ".toList ++ Text.quoteText pattern ++ " with ".toList ++ kind.name
  | lineSkipped n error =>
    "Skipping line ".toList ++ Text.decimal n ++ ": ".toList ++ error.message

end Event

end LineGrep
