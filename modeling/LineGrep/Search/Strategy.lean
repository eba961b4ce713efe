import LineGrep.Search.Unanchored
import LineGrep.Search.Window

/-!
Choosing how to search for a pattern. A literal pattern is searched as one unless an automaton is
asked for, and every other pattern is searched by an automaton.
-/

namespace LineGrep

/-- A pattern made ready to search lines for. -/
inductive Strategy where
  | kmp (factor : Factor)
  | automaton (cursor : Cursor)

namespace Strategy

/-- The kind of search that is used where the choice is left open. -/
def kindFor (pattern : List Char) : SearchKind → SearchKind
  | .auto => if Factor.isLiteral pattern then .kmp else .automaton
  | forced => forced

def kind : Strategy → SearchKind
  | kmp _ => .kmp
  | automaton _ => .automaton

def build (pattern : List Char) (kind : SearchKind) :
    Except SearchError (Reported Strategy) :=
  match kindFor pattern kind with
  | .kmp => (Factor.ofPattern pattern).map fun f => ⟨.kmp f, []⟩
  | _ =>
    match Automaton.compile pattern with
    | .ok compiled => .ok ⟨.automaton compiled.value, compiled.events⟩
    | .error e => .error (.parse e)

/-- Makes a pattern ready for a kind of search and reports the choice. -/
def withKind (pattern : List Char) (kind : SearchKind) :
    Except SearchError (Reported Strategy) :=
  (build pattern kind).map fun built =>
    ⟨built.value, built.events ++ [.searchChosen pattern built.value.kind]⟩

/-- Makes a pattern ready for the kind of search that suits it. -/
def select (pattern : List Char) : Except SearchError (Reported Strategy) :=
  withKind pattern .auto

def search (s : Strategy) (line : List Char) : Except AutomatonError Bool × Strategy :=
  match s with
  | kmp f => (f.search line, s)
  | automaton c =>
    let outcome := c.search line
    (outcome.1, .automaton outcome.2)

end Strategy

end LineGrep
