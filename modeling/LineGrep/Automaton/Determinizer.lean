import LineGrep.Automaton.Builder
import LineGrep.Automaton.Dfa
import LineGrep.Event

/-!
Making an automaton deterministic in place. A set gets the next number when it is met first, and
waits to be looked at. Looking at a set fills the row of its state, meets the sets that its labels
lead to, notes its state as the initial one if it holds the other automaton's initial state, and
reports it. There is no result if a state is looked up that its table does not have. Main statement:
looking at a set meets a new one or leaves fewer waiting, so the work comes to an end.
-/

namespace LineGrep

namespace Moves

/-- Puts targets behind those of a label, or where the label belongs in the order of columns. -/
def extend (slot : Slot) (targets : List Nat) : List (Slot × List Nat) → List (Slot × List Nat)
  | [] => [(slot, targets)]
  | (s, found) :: rest =>
    if slot = s then (s, found ++ targets) :: rest
    else if slot.column < s.column then (slot, targets) :: (s, found) :: rest
    else (s, found) :: extend slot targets rest

/-- Lets each byte also go where any byte goes. -/
def fold (moves : List (Slot × List Nat)) : List (Slot × List Nat) :=
  match moves.lookup .any with
  | none => moves
  | some wild => moves.map fun
    | (.byte b, targets) => (.byte b, targets ++ wild)
    | move => move

end Moves

/-- The targets of a set by label. The automaton has to have the states of the set. -/
def Nfa.targetsByLabel? (nfa : Nfa) (set : StateSet) : Option (List (Slot × List Nat)) := do
  let rows ← set.ids.mapM nfa.table.row?
  let moves := (rows.flatMap Row.transitions).foldl (fun moves entry =>
    Moves.extend entry.1 entry.2 moves) []
  return Moves.fold moves

def Row.mark (row : Row) (initial accepting : Bool) : Row :=
  let row := if accepting then row.markAccepting else row
  if initial then row.markInitial else row

/-- The work on a deterministic automaton. -/
structure Determinizer where
  /-- The sets that were met, with their numbers. -/
  ids : List (StateSet × Nat)
  /-- The sets that were met and not yet looked at. -/
  worklist : List (Nat × StateSet)
  table : Table
  initial : Nat
  events : List Event

namespace Determinizer

variable {nfa : Nfa} {d next last : Determinizer}

def nothing : Determinizer :=
  ⟨[], [], .empty, 0, []⟩

/-- The number of a set. One that was not met before gets the next number. -/
def meet (d : Determinizer) (set : StateSet) : Nat × Determinizer :=
  match d.ids.lookup set with
  | some id => (id, d)
  | none =>
    let id := d.table.size
    (id, { d with
      ids := d.ids ++ [(set, id)]
      worklist := d.worklist ++ [(id, set)]
      table := d.table.addState })

/-- Lets a state go on to the closure of the targets of a label. -/
def follow? (nfa : Nfa) (id : Nat) (d : Determinizer) (move : Slot × List Nat) :
    Option Determinizer := do
  let set ← nfa.table.closure? move.2
  let (target, met) := d.meet set
  let table ← met.table.update? id (·.set move.1 target)
  return { met with table }

/-- Looks at a set with its number. -/
def expand? (nfa : Nfa) (d : Determinizer) (id : Nat) (set : StateSet) : Option Determinizer := do
  let moves ← nfa.targetsByLabel? set
  let d ← moves.foldlM (follow? nfa id) d
  let initial := set.contains nfa.initial
  let table ← d.table.update? id (·.mark initial (set.contains nfa.accept))
  return { d with
    table
    initial := if initial then id else d.initial
    events := d.events ++ [.subsetNumbered id set] }

/-- How many sets could still be met. -/
def unmet (nfa : Nfa) (d : Determinizer) : Nat :=
  Worklist.unseen (StateSet.increasing 0 nfa.size) (d.ids.map (·.1.ids))

/-- Either a set was met, or as many are waiting as before. -/
def Advances (nfa : Nfa) (d next : Determinizer) : Prop :=
  next.unmet nfa < d.unmet nfa ∨ next.unmet nfa = d.unmet nfa ∧ next.worklist = d.worklist

theorem Advances.refl (nfa : Nfa) (d : Determinizer) : Advances nfa d d :=
  Or.inr ⟨rfl, rfl⟩

theorem Advances.trans (h : Advances nfa d next) (h' : Advances nfa next last) :
    Advances nfa d last := by
  rcases h with fewer | ⟨same, waiting⟩ <;> rcases h' with fewer' | ⟨same', waiting'⟩
  · exact Or.inl (Nat.lt_trans fewer' fewer)
  · exact Or.inl (same' ▸ fewer)
  · exact Or.inl (same ▸ fewer')
  · exact Or.inr ⟨same'.trans same, waiting'.trans waiting⟩

theorem not_mem_of_lookup_eq_none {ids : List (StateSet × Nat)} {set : StateSet}
    (h : ids.lookup set = none) : set.ids ∉ ids.map (·.1.ids) := by
  intro mem
  obtain ⟨entry, held, same⟩ := List.mem_map.1 mem
  have other := List.lookup_eq_none_iff.1 h entry held
  rw [← StateSet.ext same, bne_self_eq_false] at other
  cases other

theorem advances_meet (d : Determinizer) {set : StateSet} (within : set.Within nfa.size) :
    Advances nfa d (d.meet set).2 := by
  unfold meet
  split
  · exact .refl nfa d
  · next unmet =>
    refine Or.inl (Worklist.unseen_lt (fun ids mem => ?_) within.mem_increasing
      (not_mem_of_lookup_eq_none unmet) ?_)
    · rw [List.map_append]
      exact List.mem_append_left _ mem
    · simp

theorem within_of_closure? {seeds : List Nat} {set : StateSet}
    (h : nfa.table.closure? seeds = some set) : set.Within nfa.size := by
  obtain ⟨seen, spread, rfl⟩ := Option.map_eq_some_iff.1 h
  intro id mem
  exact Table.spread?_bounded (fun _ mem => absurd mem List.not_mem_nil) spread id
    (StateSet.mem_ofList.1 mem)

theorem advances_follow? {id : Nat} {move : Slot × List Nat}
    (h : follow? nfa id d move = some next) : Advances nfa d next := by
  obtain ⟨set, closed, rest⟩ := Option.bind_eq_some_iff.1 h
  obtain ⟨table, -, made⟩ := Option.bind_eq_some_iff.1 rest
  have met := d.advances_meet (within_of_closure? closed)
  cases made
  exact met

theorem advances_foldlM {id : Nat} {moves : List (Slot × List Nat)}
    (h : moves.foldlM (follow? nfa id) d = some next) : Advances nfa d next := by
  induction moves generalizing d with
  | nil =>
    cases h
    exact .refl nfa _
  | cons move moves ih =>
    rw [List.foldlM_cons] at h
    obtain ⟨first, followed, rest⟩ := Option.bind_eq_some_iff.1 h
    exact (advances_follow? followed).trans (ih rest)

theorem advances_expand? {id : Nat} {set : StateSet} (h : d.expand? nfa id set = some next) :
    Advances nfa d next := by
  obtain ⟨moves, -, rest⟩ := Option.bind_eq_some_iff.1 h
  obtain ⟨filled, followed, rest⟩ := Option.bind_eq_some_iff.1 rest
  obtain ⟨table, -, made⟩ := Option.bind_eq_some_iff.1 rest
  have met := advances_foldlM followed
  cases made
  exact met

/-- Looks at the sets that wait, in the order in which they were met. -/
def run? (nfa : Nfa) (d : Determinizer) : Option Determinizer :=
  match _waiting : d.worklist with
  | [] => some d
  | (id, set) :: rest =>
    match _next : expand? nfa { d with worklist := rest } id set with
    | none => none
    | some next => run? nfa next
termination_by (d.unmet nfa, d.worklist.length)
decreasing_by
  rcases advances_expand? _next with fewer | ⟨same, waiting⟩
  · exact Prod.Lex.left _ _ fewer
  · rw [same, waiting, _waiting]
    exact Prod.Lex.right _ (Nat.lt_succ_self _)

end Determinizer

/-- The deterministic automaton of another one, with the reports on the sets of its states. -/
def Nfa.determinize? (nfa : Nfa) : Option (Reported Dfa) := do
  let start ← nfa.table.closure? [nfa.initial]
  let (initial, d) := Determinizer.nothing.meet start
  let d ← { d with initial }.run? nfa
  return ⟨⟨d.table, d.initial, d.ids.map (·.1)⟩, d.events⟩

end LineGrep
