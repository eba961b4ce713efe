import LineGrep.Automaton.Dfa
import LineGrep.Proofs.Automaton.Thompson
import Mathlib.Data.List.Basic

/-!
The sets that the search for subsets finds. The search keeps the sets found so far distinct and
reached, and where a move leads from one of them is found or still to do. Main statements: the sets
found are the reached ones, the start set is the first, and no other one holds the initial state.
-/

namespace LineGrep

/-- The transitions that a label of the deterministic automaton takes together. -/
def Slot.Takes : Slot → Slot → Prop
  | .byte b, slot => slot = .byte b ∨ slot = .any
  | label, slot => slot = label

theorem Slot.takes_self (label : Slot) : label.Takes label := by
  cases label <;> simp [Takes]

theorem Slot.Takes.ne_empty {label slot : Slot} (h : label.Takes slot) (consuming : label ≠ .empty) :
    slot ≠ .empty := by
  cases label with
  | byte => rcases h with rfl | rfl <;> simp
  | any | empty => exact h ▸ consuming

namespace Nfa

variable {nfa : Nfa}

theorem mem_targets_iff {set : StateSet} {slot : Slot} {next : Nat} :
    next ∈ nfa.targets set slot ↔ ∃ id ∈ set, next ∈ (nfa.table.row id).targets slot := by
  simp [targets, StateSet.mem_def]

theorem mem_foldedTargets_iff {set : StateSet} {label : Slot} (consuming : label ≠ .empty)
    {seed : Nat} :
    seed ∈ nfa.foldedTargets set label ↔
      ∃ id ∈ set, ∃ slot, label.Takes slot ∧ seed ∈ (nfa.table.row id).targets slot := by
  cases label with
  | byte b =>
    simp only [foldedTargets, List.mem_append, mem_targets_iff, Slot.Takes]
    constructor
    · rintro (⟨id, mem, target⟩ | ⟨id, mem, target⟩)
      · exact ⟨id, mem, _, Or.inl rfl, target⟩
      · exact ⟨id, mem, _, Or.inr rfl, target⟩
    · rintro ⟨id, mem, _, rfl | rfl, target⟩
      · exact Or.inl ⟨id, mem, target⟩
      · exact Or.inr ⟨id, mem, target⟩
  | any => simp [foldedTargets, mem_targets_iff, Slot.Takes]
  | empty => exact absurd rfl consuming

theorem mem_moves_iff {set next : StateSet} {slot : Slot} :
    (slot, next) ∈ nfa.moves set ↔ slot ≠ .empty ∧ nfa.targets set slot ≠ [] ∧
      next = nfa.closure (nfa.foldedTargets set slot) := by
  simp only [moves, List.mem_map, List.mem_filter, Slot.mem_consuming_iff, Prod.mk.injEq,
    Bool.not_eq_true', List.isEmpty_eq_false_iff]
  constructor
  · rintro ⟨s, ⟨consumes, ne⟩, rfl, rfl⟩
    exact ⟨consumes, ne, rfl⟩
  · rintro ⟨consumes, ne, rfl⟩
    exact ⟨slot, ⟨consumes, ne⟩, rfl, rfl⟩

/-- The sets to which moves lead from the start set. -/
inductive Reached (nfa : Nfa) : StateSet → Prop where
  | start : Reached nfa nfa.start
  | move {set slot next} : Reached nfa set → (slot, next) ∈ nfa.moves set → Reached nfa next

/-- What holds of the sets found and the sets to do at each step of the search. -/
structure Exploring (nfa : Nfa) (done todo : List StateSet) : Prop where
  distinct : done.Nodup
  reached : ∀ set, set ∈ done ∨ set ∈ todo → nfa.Reached set
  pending : ∀ set ∈ done, ∀ slot next, (slot, next) ∈ nfa.moves set → next ∈ done ∨ next ∈ todo

theorem Exploring.start (nfa : Nfa) : nfa.Exploring [] [nfa.start] := by
  refine ⟨List.nodup_nil, fun set mem => ?_, by simp⟩
  obtain rfl : set = nfa.start := by simpa using mem
  exact .start

theorem Exploring.find {set : StateSet} {done rest : List StateSet}
    (h : nfa.Exploring done (set :: rest)) (new : set ∉ done) :
    nfa.Exploring (done ++ [set]) (rest ++ (nfa.moves set).map (·.2)) := by
  have here : nfa.Reached set := h.reached set (Or.inr List.mem_cons_self)
  refine ⟨?_, ?_, ?_⟩
  · rw [List.nodup_append]
    refine ⟨h.distinct, by simp, fun a old b last same => ?_⟩
    obtain rfl : b = set := by simpa using last
    exact new (same ▸ old)
  · intro other mem
    simp only [List.mem_append, List.mem_singleton, List.mem_map] at mem
    rcases mem with (old | rfl) | tail | ⟨⟨slot, next⟩, move, rfl⟩
    · exact h.reached other (Or.inl old)
    · exact here
    · exact h.reached other (Or.inr (List.mem_cons_of_mem _ tail))
    · exact here.move move
  · intro other mem slot next move
    simp only [List.mem_append, List.mem_singleton, List.mem_map] at mem ⊢
    rcases mem with old | rfl
    · rcases h.pending other old slot next move with found | todo
      · exact Or.inl (Or.inl found)
      · rcases List.mem_cons.1 todo with rfl | tail
        · exact Or.inl (Or.inr rfl)
        · exact Or.inr (Or.inl tail)
    · exact Or.inr (Or.inr ⟨_, move, rfl⟩)

theorem Exploring.skip {set : StateSet} {done rest : List StateSet}
    (h : nfa.Exploring done (set :: rest)) (old : set ∈ done) : nfa.Exploring done rest := by
  refine ⟨h.distinct, fun other mem => h.reached other ?_, fun other mem slot next move => ?_⟩
  · exact mem.imp_right (List.mem_cons_of_mem _)
  · rcases h.pending other mem slot next move with found | todo
    · exact Or.inl found
    · rcases List.mem_cons.1 todo with rfl | tail
      · exact Or.inl old
      · exact Or.inr tail

theorem Exploring.finish {done todo : List StateSet} {within : ∀ s ∈ todo, s.Within nfa.size}
    (h : nfa.Exploring done todo) : nfa.Exploring (nfa.explore done todo within) [] := by
  fun_induction explore nfa done todo within with
  | case1 => exact h
  | case2 _ _ _ _ _ new _ ih => exact ih (h.find new)
  | case3 _ _ _ _ _ old _ ih => exact ih (h.skip (Decidable.not_not.1 old))

theorem isPrefix_explore {done todo : List StateSet} {within : ∀ s ∈ todo, s.Within nfa.size} :
    done <+: nfa.explore done todo within := by
  fun_induction explore nfa done todo within with
  | case1 => exact List.prefix_rfl
  | case2 _ _ _ _ _ _ _ ih => exact (List.prefix_append _ _).trans ih
  | case3 _ _ _ _ _ _ _ ih => exact ih

theorem subsets_eq_start_cons (nfa : Nfa) : ∃ rest, nfa.subsets = nfa.start :: rest := by
  have first : [nfa.start] <+: nfa.subsets := by
    rw [subsets, explore]
    exact isPrefix_explore
  obtain ⟨rest, same⟩ := first
  exact ⟨rest, same.symm⟩

theorem exploring_subsets (nfa : Nfa) : nfa.Exploring nfa.subsets [] :=
  (Exploring.start nfa).finish

theorem mem_subsets_of_move {set next : StateSet} {slot : Slot} (mem : set ∈ nfa.subsets)
    (move : (slot, next) ∈ nfa.moves set) : next ∈ nfa.subsets := by
  have found := (exploring_subsets nfa).pending set mem slot next move
  simpa using found

/-- The sets found are those that are reached. -/
theorem mem_subsets_iff {set : StateSet} : set ∈ nfa.subsets ↔ nfa.Reached set := by
  constructor
  · exact fun mem => (exploring_subsets nfa).reached set (Or.inl mem)
  · intro h
    induction h with
    | start =>
      obtain ⟨rest, same⟩ := subsets_eq_start_cons nfa
      exact same ▸ List.mem_cons_self
    | move _ move ih => exact mem_subsets_of_move ih move

theorem Rooted.eq_of_reaches_initial (rooted : nfa.Rooted) {id : Nat}
    (h : nfa.table.Reaches id nfa.initial) : id = nfa.initial := by
  generalize same : nfa.initial = last at h
  induction h with
  | refl => rfl
  | step _ target _ ih =>
    obtain rfl := ih same
    exact absurd target (same ▸ rooted.fresh _ _)

theorem Rooted.initial_mem_start (rooted : nfa.Rooted) : nfa.initial ∈ nfa.start :=
  Table.mem_closure_iff.2 ⟨nfa.initial, List.mem_singleton_self _, .refl rooted.initial_lt⟩

/-- No move leads to a set that holds the initial state. -/
theorem Rooted.initial_not_mem_of_move (rooted : nfa.Rooted) {set next : StateSet} {slot : Slot}
    (move : (slot, next) ∈ nfa.moves set) : nfa.initial ∉ next := by
  intro mem
  obtain ⟨consuming, -, rfl⟩ := mem_moves_iff.1 move
  obtain ⟨seed, folded, reach⟩ := Table.mem_closure_iff.1 mem
  obtain rfl := rooted.eq_of_reaches_initial reach
  obtain ⟨id, -, slot, -, target⟩ := (mem_foldedTargets_iff consuming).1 folded
  exact rooted.fresh id slot target

/-- Only the start set holds the initial state. -/
theorem Rooted.initial_mem_iff (rooted : nfa.Rooted) {set : StateSet} (h : nfa.Reached set) :
    nfa.initial ∈ set ↔ set = nfa.start := by
  constructor
  · intro mem
    cases h with
    | start => rfl
    | move _ move => exact absurd mem (rooted.initial_not_mem_of_move move)
  · rintro rfl
    exact rooted.initial_mem_start

end Nfa

end LineGrep
