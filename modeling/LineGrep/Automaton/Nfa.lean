import LineGrep.Automaton.Closure
import LineGrep.Automaton.Error
import LineGrep.Regex.Basic

/-!
Nondeterministic automata. An expression becomes a fragment, a block of states that is entered in
one place and left by empty transitions to one continuation, and the automaton of the expression is
its fragment with the accepting state as continuation.
-/

namespace LineGrep

/-- The states of an expression within an automaton. They are numbered from a base on. -/
structure Fragment where
  rows : List Row
  entry : Nat

namespace Fragment

/-- Two states that consume one byte and go on. -/
def single (slot : Slot) (base continuation : Nat) : Fragment :=
  ⟨[Row.empty.add slot (base + 1), Row.empty.add .empty continuation], base⟩

/-- A state that goes on to either of two others. -/
def fork (first second : Nat) : Row :=
  (Row.empty.add .empty first).add .empty second

/-- The fragment of an expression, for the number of its first state and the state where it goes on.
The right part of a concatenation comes first, since the left part goes on there. A repetition has a
state to enter, one that is reached after each pass and one to leave, and then its body. -/
def ofRegex : Regex → (base continuation : Nat) → Fragment
  | .literal b, base, continuation => single (.byte b) base continuation
  | .dot, base, continuation => single .any base continuation
  | .cat left right, base, continuation =>
    let second := ofRegex right base continuation
    let first := ofRegex left (base + second.rows.length) second.entry
    ⟨second.rows ++ first.rows, first.entry⟩
  | .alt left right, base, continuation =>
    let first := ofRegex left base continuation
    let second := ofRegex right (base + first.rows.length) continuation
    ⟨first.rows ++ second.rows ++ [fork first.entry second.entry],
      base + first.rows.length + second.rows.length⟩
  | .star body, base, continuation =>
    let inner := ofRegex body (base + 3) (base + 1)
    let enter := fork inner.entry (base + 2)
    ⟨enter :: enter :: Row.empty.add .empty continuation :: inner.rows, base⟩

/-- The number of states that an expression takes. -/
def stateCount : Regex → Nat
  | .literal _ | .dot => 2
  | .cat left right => stateCount left + stateCount right
  | .alt left right => stateCount left + stateCount right + 1
  | .star body => stateCount body + 3

theorem length_rows (t : Regex) (base continuation : Nat) :
    (ofRegex t base continuation).rows.length = stateCount t := by
  induction t generalizing base continuation with
  | literal | dot => rfl
  | cat _ _ ihl ihr =>
    simp only [ofRegex, stateCount, List.length_append, ihl, ihr]
    omega
  | alt _ _ ihl ihr =>
    simp only [ofRegex, stateCount, List.length_append, List.length_singleton, ihl, ihr]
  | star _ ih => simp only [ofRegex, stateCount, List.length_cons, ih]

theorem entry_mem (t : Regex) (base continuation : Nat) :
    base ≤ (ofRegex t base continuation).entry ∧
      (ofRegex t base continuation).entry < base + stateCount t := by
  induction t generalizing base continuation with
  | literal | dot => simp [ofRegex, single, stateCount]
  | cat left right ihl _ =>
    have := ihl (base + stateCount right) (ofRegex right base continuation).entry
    simp only [ofRegex, stateCount, length_rows]
    omega
  | alt => simp only [ofRegex, stateCount, length_rows]; omega
  | star => simp [ofRegex, stateCount]

end Fragment

structure Nfa where
  table : Table
  initial : Nat
  accept : Nat

namespace Nfa

/-- The automaton of an expression: the accepting state and then the fragment. -/
def ofRegex (t : Regex) : Nfa :=
  let fragment := Fragment.ofRegex t 1 0
  let table : Table := ⟨(Row.empty.markAccepting :: fragment.rows).toArray⟩
  ⟨table.update fragment.entry Row.markInitial, fragment.entry, 0⟩

def size (nfa : Nfa) : Nat :=
  nfa.table.size

/-- The states that are reached through empty transitions. -/
def closure (nfa : Nfa) (seeds : List Nat) : StateSet :=
  nfa.table.closure seeds

def targets (nfa : Nfa) (set : StateSet) (slot : Slot) : List Nat :=
  set.ids.flatMap fun id => (nfa.table.row id).targets slot

/-- The states where the states of a set go when they consume a byte. -/
def consume (nfa : Nfa) (set : StateSet) (b : UInt8) : List Nat :=
  set.ids.flatMap fun id =>
    (nfa.table.row id).targets (.byte b) ++ (nfa.table.row id).targets .any

/-- Consumes a byte and then follows empty transitions. -/
def step (nfa : Nfa) (set : StateSet) (b : UInt8) : StateSet :=
  nfa.closure (nfa.consume set b)

/-- A step from states that the automaton has to have. -/
def step? (nfa : Nfa) (set : StateSet) (b : UInt8) : Option StateSet :=
  if set.ids.all (· < nfa.size) then nfa.table.closure? (nfa.consume set b) else none

/-- The states before the first character of a word. -/
def start (nfa : Nfa) : StateSet :=
  nfa.closure [nfa.initial]

/-- Whether a word that is read from a set of states is accepted. Reading stops with the last state,
so a character outside the alphabet counts only while there are states left. -/
def acceptsFrom (nfa : Nfa) : StateSet → List Char → Except AutomatonError Bool
  | set, [] => .ok (set.contains nfa.accept)
  | set, c :: rest =>
    match byteOf? c with
    | none => .error (.characterOutOfRange c)
    | some b =>
      let next := nfa.step set b
      if next.isEmpty then .ok false else acceptsFrom nfa next rest

def accepts (nfa : Nfa) (word : List Char) : Except AutomatonError Bool :=
  nfa.acceptsFrom nfa.start word

theorem size_ofRegex (t : Regex) : (ofRegex t).size = Fragment.stateCount t + 1 := by
  simp [ofRegex, size, Table.size, Table.update, Fragment.length_rows]

end Nfa

end LineGrep
