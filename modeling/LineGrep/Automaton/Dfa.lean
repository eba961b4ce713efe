import LineGrep.Automaton.Subset

/-!
Deterministic automata. The states stand for the reachable sets of a nondeterministic automaton and
are numbered in the order in which these sets are first reached. A transition for a byte wins over
one for any byte.
-/

namespace LineGrep

structure Dfa where
  table : Table
  initial : Nat
  /-- The sets that the states stand for. -/
  subsets : List StateSet

namespace Dfa

/-- The last position of a list whose element has a property. -/
def lastPosition? {α : Type} (p : α → Bool) : List α → Option Nat
  | [] => none
  | a :: rest =>
    match lastPosition? p rest with
    | some i => some (i + 1)
    | none => if p a then some 0 else none

/-- The row in which the moves are set one after the other. -/
def rowOf (moves : List (Slot × Nat)) (initial accepting : Bool) : Row :=
  { Row.empty.setAll moves with initial, accepting }

/-- The row of the state that stands for a set. -/
def subsetRow (nfa : Nfa) (subsets : List StateSet) (set : StateSet) : Row :=
  rowOf ((nfa.moves set).map fun move => (move.1, subsets.idxOf move.2))
    (set.contains nfa.initial) (set.contains nfa.accept)

/-- The deterministic automaton with a state for each reachable set. It starts in the last state
whose set has the initial state of the other automaton. -/
def ofNfa (nfa : Nfa) : Dfa :=
  let subsets := nfa.subsets
  ⟨⟨(subsets.map (subsetRow nfa subsets)).toArray⟩,
    (lastPosition? (·.contains nfa.initial) subsets).getD 0, subsets⟩

def size (dfa : Dfa) : Nat :=
  dfa.table.size

def isAccepting (dfa : Dfa) (id : Nat) : Bool :=
  (dfa.table.row id).accepting

def next? (dfa : Dfa) (id : Nat) (b : UInt8) : Option Nat :=
  ((dfa.table.row id).target (.byte b)).or ((dfa.table.row id).target .any)

/-- A row that sets a number for each of some slots holds just these. -/
theorem targets_rowOf (slots : List Slot) (number : Slot → Nat) (initial accepting : Bool)
    (slot : Slot) : (rowOf (slots.map fun s => (s, number s)) initial accepting).targets slot =
      if slot ∈ slots then [number slot] else [] := by
  have held := Row.targets_setAll .empty slots number slot
  rwa [Row.targets_empty] at held

theorem size_ofNfa (nfa : Nfa) : (ofNfa nfa).size = nfa.subsets.length := by
  simp [ofNfa, size, Table.size]

end Dfa

end LineGrep
