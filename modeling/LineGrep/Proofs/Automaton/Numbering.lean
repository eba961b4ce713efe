import LineGrep.Automaton.Builder
import LineGrep.Proofs.Automaton.Determinization
import LineGrep.Proofs.Automaton.Determinizer
import Mathlib.Algebra.Group.Nat.Defs
import Mathlib.Data.Fin.Basic
import Mathlib.Data.List.Nodup
import Mathlib.Data.List.Perm.Subperm

/-!
The states of the deterministic automaton and the sets that they stand for. What a set leads to is
said here without the search that finds it: a label that some state of the set has leads to the
closure of the targets for the label, to which a byte adds those of the wildcard. Main statements:
the states are numbered by the sets so obtained from the start set, each of which stands behind one
state, and the initial state is the first one and is never entered again.
-/

namespace LineGrep

namespace StateSet

theorem length_increasing (low count : Nat) : (increasing low count).length = 2 ^ count := by
  induction count generalizing low with
  | zero => rfl
  | succ count ih =>
    rw [increasing, List.length_append, List.length_map, ih, Nat.pow_succ]
    omega

/-- Different sets within a bound that all have states are fewer than all sets within the bound. -/
theorem length_lt_of_within {bound : Nat} {sets : List StateSet} (distinct : sets.Nodup)
    (within : ∀ set ∈ sets, set.Within bound) (inhabited : ∀ set ∈ sets, ∃ id, id ∈ set) :
    sets.length < 2 ^ bound := by
  have fresh : [] ∉ sets.map (·.ids) := by
    intro mem
    obtain ⟨set, hset, none⟩ := List.mem_map.1 mem
    obtain ⟨id, hid⟩ := inhabited set hset
    rw [mem_def, none] at hid
    exact List.not_mem_nil hid
  have ids : ([] :: sets.map (·.ids)).Nodup :=
    List.nodup_cons.2 ⟨fresh, distinct.map fun _ _ => StateSet.ext⟩
  have candidates : [] :: sets.map (·.ids) ⊆ increasing 0 bound := by
    refine List.cons_subset.2 ⟨StateSet.mem_increasing .nil (by simp), fun list mem => ?_⟩
    obtain ⟨set, hset, rfl⟩ := List.mem_map.1 mem
    exact (within set hset).mem_increasing
  have le := (List.subperm_of_subset ids candidates).length_le
  rw [length_increasing, List.length_cons, List.length_map] at le
  exact le

end StateSet

namespace Nfa

/-- A label on transitions of a set leads to the closure of all targets that it takes together. -/
structure Leads (nfa : Nfa) (set : StateSet) (label : Slot) (next : StateSet) : Prop where
  consuming : label ≠ .empty
  present : ∃ id ∈ set, (nfa.table.row id).targets label ≠ []
  closed : ∃ seeds, next = nfa.closure seeds ∧ ∀ seed, seed ∈ seeds ↔
    ∃ id ∈ set, ∃ slot, label.Takes slot ∧ seed ∈ (nfa.table.row id).targets slot

/-- The sets obtained from the closure of the initial state by following labels. -/
inductive Obtained (nfa : Nfa) : StateSet → Prop where
  | start : Obtained nfa (nfa.closure [nfa.initial])
  | follow {set label next} : Obtained nfa set → nfa.Leads set label next → Obtained nfa next

variable {nfa : Nfa} {set next : StateSet} {label : Slot}

theorem targets_ne_nil_iff {slot : Slot} :
    nfa.targets set slot ≠ [] ↔ ∃ id ∈ set, (nfa.table.row id).targets slot ≠ [] := by
  simp [targets, StateSet.mem_def]

/-- The moves of a set are where its labels lead. -/
theorem mem_moves_iff_leads : (label, next) ∈ nfa.moves set ↔ nfa.Leads set label next := by
  rw [mem_moves_iff, targets_ne_nil_iff]
  constructor
  · rintro ⟨consuming, present, rfl⟩
    exact ⟨consuming, present, _, rfl, fun _ => mem_foldedTargets_iff consuming⟩
  · rintro ⟨consuming, present, seeds, rfl, same⟩
    refine ⟨consuming, present, closure_congr fun seed => ?_⟩
    rw [same, mem_foldedTargets_iff consuming]

theorem reached_iff_obtained : nfa.Reached set ↔ nfa.Obtained set := by
  constructor
  · intro h
    induction h with
    | start => exact .start
    | move _ move ih => exact ih.follow (mem_moves_iff_leads.1 move)
  · intro h
    induction h with
    | start => exact .start
    | follow _ leads ih => exact ih.move (mem_moves_iff_leads.2 leads)

theorem Reached.within (h : nfa.Reached set) : set.Within nfa.size := by
  cases h with
  | start => exact nfa.within_closure _
  | move _ move => exact within_moves (List.mem_map.2 ⟨_, move, rfl⟩)

/-- A label never leads to no state at all. -/
theorem Leads.inhabited (h : nfa.Leads set label next) (bounded : nfa.table.Bounded) :
    ∃ id, id ∈ next := by
  obtain ⟨id, mem, some⟩ := h.present
  obtain ⟨seed, target⟩ := List.exists_mem_of_ne_nil _ some
  obtain ⟨seeds, rfl, same⟩ := h.closed
  exact ⟨seed, Table.mem_closure_iff.2 ⟨seed, (same seed).2
    ⟨id, mem, label, label.takes_self, target⟩, .refl (bounded id label seed target)⟩⟩

theorem Rooted.inhabited (rooted : nfa.Rooted) (h : nfa.Reached set) : ∃ id, id ∈ set := by
  cases h with
  | start => exact ⟨nfa.initial, rooted.initial_mem_start⟩
  | move _ move => exact (mem_moves_iff_leads.1 move).inhabited rooted.bounded

end Nfa

namespace Dfa

variable {nfa : Nfa} {set next : StateSet}

theorem targets_subsetRow (nfa : Nfa) (subsets : List StateSet) (set : StateSet) (slot : Slot) :
    (subsetRow nfa subsets set).targets slot =
      ((subsetRow nfa subsets set).target slot).toList := by
  rw [Row.target, targets_subsetRow_eq]
  split <;> rfl

/-- A state has the number of a set as target for a label just in case the label leads there. -/
theorem mem_targets_subsetRow_iff {subsets : List StateSet} {slot : Slot} {target : Nat} :
    target ∈ (subsetRow nfa subsets set).targets slot ↔
      ∃ next, nfa.Leads set slot next ∧ target = subsets.idxOf next := by
  rw [targets_subsetRow, Option.mem_toList]
  constructor
  · intro found
    by_cases moves : ∃ next, (slot, next) ∈ nfa.moves set
    · obtain ⟨next, move⟩ := moves
      rw [target_of_mem_moves move] at found
      exact ⟨next, Nfa.mem_moves_iff_leads.1 move, (Option.some.inj found).symm⟩
    · rw [target_eq_none (not_exists.1 moves)] at found
      cases found
  · rintro ⟨next, leads, rfl⟩
    exact target_of_mem_moves (Nfa.mem_moves_iff_leads.2 leads) subsets

theorem isDeterministic_subsetRow (nfa : Nfa) (subsets : List StateSet) (set : StateSet) :
    (subsetRow nfa subsets set).isDeterministic = true := by
  rw [Row.isDeterministic, Bool.and_eq_true, List.isEmpty_iff, List.all_eq_true]
  constructor
  · refine List.eq_nil_iff_forall_not_mem.2 fun target mem => ?_
    obtain ⟨_, leads, -⟩ := mem_targets_subsetRow_iff.1 mem
    exact leads.consuming rfl
  · rintro ⟨slot, targets⟩ mem
    obtain ⟨-, some, rfl⟩ := Row.mem_transitions_iff.1 mem
    rw [targets_subsetRow] at some ⊢
    cases found : (subsetRow nfa subsets set).target slot with
    | none => simp [found] at some
    | some target => rfl

theorem isDeterministic_ofNfa (nfa : Nfa) : (ofNfa nfa).table.isDeterministic = true := by
  simp only [Table.isDeterministic, ofNfa, List.all_toArray, List.all_map, List.all_eq_true]
  exact fun set _ => isDeterministic_subsetRow nfa _ set

/-- The states of a deterministic automaton stand for sets of states of another automaton. -/
structure Numbers (dfa : Dfa) (nfa : Nfa) (S : Fin dfa.size → StateSet) : Prop where
  injective : Function.Injective S
  /-- The sets that have a number are those obtained from the start set. -/
  obtained_iff : ∀ set, nfa.Obtained set ↔ ∃ k, S k = set
  inhabited : ∀ k, ∃ id, id ∈ S k
  first : ∃ h : 0 < dfa.size, S ⟨0, h⟩ = nfa.closure [nfa.initial]
  accepting_iff : ∀ k : Fin dfa.size, (dfa.table.row k).accepting = true ↔ nfa.accept ∈ S k
  /-- Every target is the number of a set, and it is the set to which the label leads. -/
  mem_targets_iff : ∀ (k : Fin dfa.size) (label : Slot) (target : Nat),
    target ∈ (dfa.table.row k).targets label ↔
      ∃ next : Fin dfa.size, target = next ∧ nfa.Leads (S k) label (S next)

/-- The set behind a state is the one that was found with its number. -/
def setOf (nfa : Nfa) (k : Fin (ofNfa nfa).size) : StateSet :=
  nfa.subsets.get (k.cast (size_ofNfa nfa))

theorem getElem?_subsets (nfa : Nfa) (k : Fin (ofNfa nfa).size) :
    nfa.subsets[k.val]? = some (setOf nfa k) := by
  simp [setOf]

theorem setOf_injective (nfa : Nfa) : Function.Injective (setOf nfa) :=
  (List.nodup_iff_injective_get.1 (Nfa.exploring_subsets nfa).distinct).comp
    (Fin.cast_injective _)

theorem mem_subsets_iff_setOf : set ∈ nfa.subsets ↔ ∃ k, setOf nfa k = set := by
  rw [List.mem_iff_get]
  constructor
  · rintro ⟨k, rfl⟩
    exact ⟨k.cast (size_ofNfa nfa).symm, rfl⟩
  · rintro ⟨k, rfl⟩
    exact ⟨_, rfl⟩

theorem reached_setOf (nfa : Nfa) (k : Fin (ofNfa nfa).size) : nfa.Reached (setOf nfa k) :=
  Nfa.mem_subsets_iff.1 (mem_subsets_iff_setOf.2 ⟨k, rfl⟩)

theorem row_eq_subsetRow (nfa : Nfa) (k : Fin (ofNfa nfa).size) :
    (ofNfa nfa).table.row k = subsetRow nfa nfa.subsets (setOf nfa k) :=
  row_ofNfa (getElem?_subsets nfa k)

theorem idxOf_setOf (nfa : Nfa) (k : Fin (ofNfa nfa).size) :
    nfa.subsets.idxOf (setOf nfa k) = k :=
  (Nfa.exploring_subsets nfa).distinct.idxOf_getElem _ _

theorem setOf_eq_start_iff {k : Fin (ofNfa nfa).size} : setOf nfa k = nfa.start ↔ k.val = 0 := by
  obtain ⟨rest, same⟩ := nfa.subsets_eq_start_cons
  have zero : nfa.subsets.idxOf nfa.start = 0 := by
    rw [same, List.idxOf_cons_self]
  constructor
  · intro h
    rw [← idxOf_setOf nfa k, h, zero]
  · intro h
    have first := getElem?_subsets nfa k
    rw [h, same] at first
    exact (Option.some.inj first).symm

theorem numbers_ofNfa (rooted : nfa.Rooted) : (ofNfa nfa).Numbers nfa (setOf nfa) where
  injective := setOf_injective nfa
  obtained_iff set := by
    rw [← Nfa.reached_iff_obtained, ← Nfa.mem_subsets_iff, mem_subsets_iff_setOf]
  inhabited k := rooted.inhabited (reached_setOf nfa k)
  first := by
    obtain ⟨rest, same⟩ := nfa.subsets_eq_start_cons
    have pos : 0 < (ofNfa nfa).size := by
      rw [size_ofNfa, same]
      exact Nat.zero_lt_succ _
    exact ⟨pos, setOf_eq_start_iff.2 rfl⟩
  accepting_iff k := by
    rw [row_eq_subsetRow]
    exact StateSet.contains_iff
  mem_targets_iff k label target := by
    rw [row_eq_subsetRow, mem_targets_subsetRow_iff]
    constructor
    · rintro ⟨next, leads, rfl⟩
      have move := Nfa.mem_moves_iff_leads.2 leads
      obtain ⟨number, rfl⟩ := mem_subsets_iff_setOf.1
        (Nfa.mem_subsets_iff.2 ((reached_setOf nfa k).move move))
      exact ⟨number, idxOf_setOf nfa number, leads⟩
    · rintro ⟨number, rfl, leads⟩
      exact ⟨_, leads, (idxOf_setOf nfa number).symm⟩

theorem size_lt_two_pow (rooted : nfa.Rooted) : (ofNfa nfa).size < 2 ^ nfa.size := by
  rw [size_ofNfa]
  refine StateSet.length_lt_of_within (Nfa.exploring_subsets nfa).distinct ?_ ?_
  · exact fun set mem => (Nfa.mem_subsets_iff.1 mem).within
  · exact fun set mem => rooted.inhabited (Nfa.mem_subsets_iff.1 mem)

theorem events_ofNfa (nfa : Nfa) : (ofNfa nfa).events =
    (List.finRange (ofNfa nfa).size).map fun k => .subsetNumbered k (setOf nfa k) := by
  refine List.ext_getElem ?_ fun i h h' => ?_
  · rw [events, List.length_mapIdx, List.length_map, List.length_finRange, size_ofNfa]
    rfl
  · simp only [events, List.getElem_mapIdx, List.getElem_map, List.getElem_finRange]
    rfl

/-- The first state alone is marked as initial. -/
theorem initial_row_iff (rooted : nfa.Rooted) {k : Nat} :
    ((ofNfa nfa).table.row k).initial = true ↔ k = 0 := by
  by_cases inside : k < (ofNfa nfa).size
  · have row := row_eq_subsetRow nfa ⟨k, inside⟩
    rw [row, subsetRow, rowOf, StateSet.contains_iff, rooted.initial_mem_iff (reached_setOf nfa _),
      setOf_eq_start_iff]
  · rw [Table.row_of_size_le (Nat.le_of_not_lt inside)]
    refine iff_of_false Bool.false_ne_true ?_
    rintro rfl
    exact inside (numbers_ofNfa rooted).first.1

/-- No label leads to the set of the first state. -/
theorem zero_not_mem_targets (rooted : nfa.Rooted) (k : Nat) (label : Slot) :
    0 ∉ ((ofNfa nfa).table.row k).targets label := by
  by_cases inside : k < (ofNfa nfa).size
  · intro mem
    obtain ⟨next, zero, leads⟩ := ((numbers_ofNfa rooted).mem_targets_iff ⟨k, inside⟩ label 0).1 mem
    have start := setOf_eq_start_iff.2 zero.symm
    have outside := rooted.initial_not_mem_of_move (Nfa.mem_moves_iff_leads.2 leads)
    rw [start] at outside
    exact outside rooted.initial_mem_start
  · rw [Table.row_of_size_le (Nat.le_of_not_lt inside), Row.targets_empty]
    exact List.not_mem_nil

/-- The work on the automaton of an expression ends. The states that it makes are the sets obtained
from the start set, each once, and they are reported one by one in the order of their numbers. -/
theorem exists_numbering (t : Regex) :
    ∃ nfa dfa events, Nfa.build? t = some nfa ∧ nfa.determinize? = some ⟨dfa, events⟩ ∧
      (Automaton.ofRegex t).determinize = ⟨.deterministic (.start dfa), events⟩ ∧
      ∃ S : Fin dfa.size → StateSet, dfa.Numbers nfa S ∧ dfa.size ≤ 2 ^ nfa.size - 1 ∧
        dfa.table.isDeterministic = true ∧
        events.map (fun e => (e.severity, e.text)) =
          (List.finRange dfa.size).map fun k : Fin dfa.size => (.trace,
            "DFA state ".toList ++ Text.decimal k ++ " = NFA states ".toList ++ (S k).text) := by
  have rooted := Nfa.rooted_ofRegex t
  refine ⟨_, _, _, Nfa.build?_eq t, Nfa.determinize?_eq rooted, rfl, setOf _, numbers_ofNfa rooted,
    Nat.le_sub_one_of_lt (size_lt_two_pow rooted), isDeterministic_ofNfa _, ?_⟩
  rw [events_ofNfa, List.map_map]
  rfl

/-- The automaton of an expression starts in its first state, whatever set was expanded last: no
other state is marked, none leads back to it, and no other set holds the initial state. -/
theorem initial_never_displaced (t : Regex) :
    let nfa := Nfa.ofRegex t
    let dfa := ofNfa nfa
    nfa.determinize? = some ⟨dfa, dfa.events⟩ ∧
      dfa.initial = 0 ∧ (∀ k, (dfa.table.row k).initial = true ↔ k = 0) ∧
      (∀ k label, 0 ∉ (dfa.table.row k).targets label) ∧
      ∃ S : Fin dfa.size → StateSet, dfa.Numbers nfa S ∧
        ∀ k, nfa.initial ∈ S k ↔ k.val = 0 := by
  have rooted := Nfa.rooted_ofRegex t
  refine ⟨Nfa.determinize?_eq rooted, initial_ofNfa rooted, fun k => initial_row_iff rooted,
    zero_not_mem_targets rooted, setOf _, numbers_ofNfa rooted, fun k => ?_⟩
  rw [rooted.initial_mem_iff (reached_setOf _ k), setOf_eq_start_iff]

end Dfa

end LineGrep
