import LineGrep.Automaton.Dfa

/-!
Running a deterministic automaton. A cursor stands on a state and moves with each character that
the state can consume. Main statement: a character that it cannot consume leaves it where it is.
-/

namespace LineGrep

/-- A deterministic automaton with its current state. -/
structure Cursor where
  dfa : Dfa
  current : Nat

namespace Cursor

def start (dfa : Dfa) : Cursor :=
  ⟨dfa, dfa.initial⟩

def reset (c : Cursor) : Cursor :=
  start c.dfa

def isAccepting (c : Cursor) : Bool :=
  c.dfa.isAccepting c.current

def move (c : Cursor) (ch : Char) : Except AutomatonError Cursor :=
  match byteOf? ch with
  | none => .error (.characterOutOfRange ch)
  | some b =>
    match c.dfa.next? c.current b with
    | none => .error .noTransition
    | some next => .ok { c with current := next }

/-- Consumes a character and tells whether the new state accepts. After an error the cursor has not
moved. -/
def input (c : Cursor) (ch : Char) : Except AutomatonError Bool × Cursor :=
  match c.move ch with
  | .ok next => (.ok next.isAccepting, next)
  | .error e => (.error e, c)

/-- Reads a word with one move of the cursor after the other, and puts the cursor back at the end of
the word, where it cannot move and where a character lies outside the alphabet. -/
def readThrough (c : Cursor) (accepted : Bool) : List Char → Except AutomatonError Bool × Cursor
  | [] => (.ok accepted, c.reset)
  | ch :: rest =>
    match c.input ch with
    | (.ok accepting, next) => readThrough next accepting rest
    | (.error .noTransition, stopped) => (.ok false, stopped.reset)
    | (.error e, stopped) => (.error e, stopped.reset)

/-- Whether the whole of a word is accepted, read from the initial state. -/
def accepts (c : Cursor) (word : List Char) : Except AutomatonError Bool × Cursor :=
  c.reset.readThrough c.reset.isAccepting word

theorem dfa_move {c next : Cursor} {ch : Char} (h : c.move ch = .ok next) : next.dfa = c.dfa := by
  unfold move at h
  split at h
  · cases h
  · split at h
    · cases h
    · cases h; rfl

/-- There are two reasons not to move. -/
theorem eq_of_move_eq_error {c : Cursor} {ch : Char} {e : AutomatonError}
    (h : c.move ch = .error e) : e = .noTransition ∨ e = .characterOutOfRange ch := by
  unfold move at h
  split at h
  · cases h; exact Or.inr rfl
  · split at h
    · cases h; exact Or.inl rfl
    · cases h

/-- An error leaves the cursor where it is. -/
theorem input_of_error {c : Cursor} {ch : Char} {e : AutomatonError}
    (h : (c.input ch).1 = .error e) : (c.input ch).2 = c := by
  unfold input at h ⊢
  split
  · next h' => simp [h'] at h
  · rfl

end Cursor

end LineGrep
