import LineGrep.Automaton.Nfa

/-!
The sets of states in which a nondeterministic automaton can be after reading a word. They are
searched breadth first from the start set, and for each label in column order the set that it leads
to. A set is looked at in the order in which it was first reached, so the place of a set among those
found is also the number of its state in the deterministic automaton. Main statement: there are
finitely many sets to see, so the search comes to an end.
-/

namespace LineGrep

namespace StateSet

/-- Whether the states of a set are below a bound. -/
def Within (bound : Nat) (s : StateSet) : Prop :=
  ∀ id ∈ s, id < bound

/-- The increasing lists of the `count` numbers from `low` on. -/
def increasing (low : Nat) : Nat → List (List Nat)
  | 0 => [[]]
  | count + 1 => increasing (low + 1) count ++ (increasing (low + 1) count).map (low :: ·)

theorem mem_increasing {low count : Nat} {ids : List Nat} (sorted : ids.Pairwise (· < ·))
    (range : ∀ id ∈ ids, low ≤ id ∧ id < low + count) : ids ∈ increasing low count := by
  induction count generalizing low ids with
  | zero =>
    cases ids with
    | nil => simp [increasing]
    | cons x _ => have := range x (by simp); omega
  | succ count ih =>
    simp only [increasing, List.mem_append, List.mem_map]
    cases ids with
    | nil => exact Or.inl (ih .nil (by simp))
    | cons x rest =>
      obtain ⟨above, tail⟩ := List.pairwise_cons.1 sorted
      have hx := range x (by simp)
      by_cases e : x = low
      · subst e
        refine Or.inr ⟨rest, ih tail fun id mem => ?_, rfl⟩
        have := above id mem
        have := range id (by simp [mem])
        omega
      · refine Or.inl (ih sorted fun id mem => ?_)
        have := range id mem
        rcases List.mem_cons.1 mem with rfl | mem
        · omega
        · have := above id mem
          omega

/-- A set within a bound is one of finitely many. -/
theorem Within.mem_increasing {bound : Nat} {s : StateSet} (h : s.Within bound) :
    s.ids ∈ increasing 0 bound :=
  StateSet.mem_increasing s.sorted fun id mem => ⟨Nat.zero_le _, by simpa using h id mem⟩

end StateSet

namespace Nfa

/-- The targets of a set for a label of the deterministic automaton. A byte with transitions of its
own also goes where any byte goes. -/
def foldedTargets (nfa : Nfa) (set : StateSet) : Slot → List Nat
  | .byte b => nfa.targets set (.byte b) ++ nfa.targets set .any
  | slot => nfa.targets set slot

/-- The labels on the transitions of a set, in column order, with the set that each leads to. -/
def moves (nfa : Nfa) (set : StateSet) : List (Slot × StateSet) :=
  (Slot.consuming.filter fun slot => !(nfa.targets set slot).isEmpty).map fun slot =>
    (slot, nfa.closure (nfa.foldedTargets set slot))

theorem within_closure (nfa : Nfa) (seeds : List Nat) : (nfa.closure seeds).Within nfa.size :=
  fun _ => Table.closure_bounded

theorem within_moves {nfa : Nfa} {set next : StateSet} (h : next ∈ (nfa.moves set).map (·.2)) :
    next.Within nfa.size := by
  simp only [moves, List.map_map, List.mem_map] at h
  obtain ⟨slot, _, rfl⟩ := h
  exact nfa.within_closure _

/-- The search for sets: `done` are the sets found so far in the order in which they were first
reached, and `todo` are those that were reached and may be new. -/
def explore (nfa : Nfa) (done todo : List StateSet) (within : ∀ s ∈ todo, s.Within nfa.size) :
    List StateSet :=
  match todo with
  | [] => done
  | set :: rest =>
    have tail : ∀ s ∈ rest, s.Within nfa.size := fun s mem => within s (by simp [mem])
    if _new : set ∉ done then
      explore nfa (done ++ [set]) (rest ++ (nfa.moves set).map (·.2)) fun s mem =>
        (List.mem_append.1 mem).elim (tail s) within_moves
    else explore nfa done rest tail
termination_by
  (Worklist.unseen (StateSet.increasing 0 nfa.size) (done.map (·.ids)), todo.length)
decreasing_by
  · refine Prod.Lex.left _ _ (Worklist.unseen_lt ?_ (within set (by simp)).mem_increasing ?_ ?_)
    · intro ids mem; simp [List.mem_map.1 mem]
    · intro mem
      obtain ⟨other, hm, e⟩ := List.mem_map.1 mem
      exact _new (StateSet.ext e ▸ hm)
    · simp
  · exact Prod.Lex.right _ (by simp)

/-- The reachable sets in the order in which they are first reached. -/
def subsets (nfa : Nfa) : List StateSet :=
  nfa.explore [] [nfa.start] fun s mem => by
    rw [List.mem_singleton.1 mem]
    exact nfa.within_closure _

end Nfa

end LineGrep
