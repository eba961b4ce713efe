import LineGrep.Automaton.Basic

/-!
Searching a line by a deterministic automaton. The automaton is run from each place of the line in
turn, until it accepts; where it has no transition, the next place is tried. Main statement: neither
the answer nor the place where the cursor is left depends on where the cursor was before.
-/

namespace LineGrep

namespace Cursor

/-- Runs on over a text until the cursor accepts or cannot move. -/
def attempt (c : Cursor) : List Char → Except AutomatonError Bool × Cursor
  | [] => (.ok false, c)
  | ch :: rest =>
    match c.move ch with
    | .ok next => if next.isAccepting then (.ok true, next) else attempt next rest
    | .error .noTransition => (.ok false, c)
    | .error e => (.error e, c)

def searchHere (c : Cursor) (text : List Char) : Except AutomatonError Bool × Cursor :=
  if c.reset.isAccepting then (.ok true, c.reset) else c.reset.attempt text

/-- Whether a line contains a match. The cursor is left where the search ended. -/
def search (c : Cursor) : List Char → Except AutomatonError Bool × Cursor
  | [] => c.searchHere []
  | ch :: rest =>
    match c.searchHere (ch :: rest) with
    | (.ok false, next) => search next rest
    | outcome => outcome

theorem dfa_attempt (c : Cursor) (text : List Char) : (c.attempt text).2.dfa = c.dfa := by
  induction text generalizing c with
  | nil => rfl
  | cons ch rest ih =>
    unfold attempt
    split
    · next h =>
      split
      · exact dfa_move h
      · rw [ih, dfa_move h]
    · rfl
    · rfl

theorem dfa_searchHere (c : Cursor) (text : List Char) : (c.searchHere text).2.dfa = c.dfa := by
  rw [searchHere]
  split
  · rfl
  · exact dfa_attempt _ _

/-- A search leaves the automaton as it is. -/
theorem dfa_search (c : Cursor) (line : List Char) : (c.search line).2.dfa = c.dfa := by
  induction line generalizing c with
  | nil => exact dfa_searchHere c []
  | cons ch rest ih =>
    have kept := dfa_searchHere c (ch :: rest)
    rw [search]
    split
    · next next same =>
      rw [same] at kept
      rw [ih, kept]
    · exact kept

/-- What a search starts from is the automaton alone. -/
theorem searchHere_congr {a b : Cursor} (h : a.dfa = b.dfa) (text : List Char) :
    a.searchHere text = b.searchHere text := by
  have : a.reset = b.reset := congrArg start h
  rw [searchHere, searchHere, this]

theorem search_congr {a b : Cursor} (h : a.dfa = b.dfa) (line : List Char) :
    a.search line = b.search line := by
  cases line with
  | nil => exact searchHere_congr h []
  | cons ch rest => simp only [search, searchHere_congr h]

end Cursor

def Automaton.search (a : Automaton) (line : List Char) : Except AutomatonError Bool × Automaton :=
  a.withCursor (·.search line)

end LineGrep
