import LineGrep.Automaton.Cursor
import LineGrep.Event
import LineGrep.Pattern.Parse

/-!
Automata in either of their two phases. An automaton is built nondeterministic and made
deterministic once; only then does it have a cursor.
-/

namespace LineGrep

/-- The events of making an automaton deterministic: its states in the order of their numbers. -/
def Dfa.events (dfa : Dfa) : List Event :=
  dfa.subsets.mapIdx .subsetNumbered

inductive Automaton where
  | nondeterministic (nfa : Nfa)
  | deterministic (cursor : Cursor)

namespace Automaton

def ofRegex (t : Regex) : Automaton :=
  .nondeterministic (.ofRegex t)

/-- The cursor of an automaton. One that is not deterministic is made so, with the cursor on the
initial state. -/
def toCursor : Automaton → Reported Cursor
  | nondeterministic nfa =>
    let dfa := Dfa.ofNfa nfa
    ⟨.start dfa, dfa.events⟩
  | deterministic cursor => ⟨cursor, []⟩

def determinize (a : Automaton) : Reported Automaton :=
  ⟨.deterministic a.toCursor.value, a.toCursor.events⟩

def isDeterministic : Automaton → Bool
  | nondeterministic _ => false
  | deterministic _ => true

def cursor : Automaton → Except AutomatonError Cursor
  | nondeterministic _ => .error .notDeterministic
  | deterministic c => .ok c

/-- Lets an operation work on the cursor of a deterministic automaton. -/
def withCursor {α : Type} (a : Automaton)
    (operation : Cursor → Except AutomatonError α × Cursor) : Except AutomatonError α × Automaton :=
  match a with
  | nondeterministic _ => (.error .notDeterministic, a)
  | deterministic c =>
    let outcome := operation c
    (outcome.1, .deterministic outcome.2)

def input (a : Automaton) (ch : Char) : Except AutomatonError Bool × Automaton :=
  a.withCursor (·.input ch)

def reset (a : Automaton) : Except AutomatonError Unit × Automaton :=
  a.withCursor fun c => (.ok (), c.reset)

def isAccepting (a : Automaton) : Except AutomatonError Bool :=
  a.cursor.map Cursor.isAccepting

def accepts (a : Automaton) (word : List Char) : Except AutomatonError Bool × Automaton :=
  a.withCursor (·.accepts word)

def table : Automaton → Table
  | nondeterministic nfa => nfa.table
  | deterministic c => c.dfa.table

def size (a : Automaton) : Nat :=
  a.table.size

def compile (pattern : List Char) : Except Pattern.ParseError (Reported Cursor) := do
  let tree ← Pattern.parse pattern
  let nfa := Nfa.ofRegex tree
  let dfa := Dfa.ofNfa nfa
  return ⟨.start dfa, .nfaBuilt pattern nfa.size :: dfa.events ++ [.dfaBuilt pattern dfa.size]⟩

end Automaton

end LineGrep
