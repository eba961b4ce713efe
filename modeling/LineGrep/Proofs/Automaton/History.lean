import LineGrep.Automaton.History
import Mathlib.Data.List.Induction

/-!
Tables after any sequence of operations. What a slot of a state holds is said by the operations
alone, from the place on where the state was added: the target that was set last, if one was set,
and then the targets added since. A step keeps this for every slot of every state, though all slots
of a state lie in one row of columns. Main statement: a table is a map from the states and slots to
what the operations on them have left there, and what it lists and tells of itself is said by that
map.
-/

namespace LineGrep

namespace Table

/-- The operation writes to a slot of a state. -/
inductive Operation.Writes (id : Nat) (slot : Slot) : Operation → Prop where
  | add (target : Nat) : Writes id slot (.change id (.add slot target))
  | set (target : Nat) : Writes id slot (.change id (.set slot target))

/-- The targets that operations add to a slot of a state, in their order. -/
def added (id : Nat) (slot : Slot) (operations : List Operation) : List Nat :=
  operations.filterMap fun
    | .change other (.add s target) => if other = id ∧ s = slot then some target else none
    | _ => none

/-- What operations leave in a slot of a state that held nothing before. -/
inductive LeavesIn (id : Nat) (slot : Slot) : List Operation → List Nat → Prop where
  | unset {operations} : (∀ target, .change id (.set slot target) ∉ operations) →
      LeavesIn id slot operations (added id slot operations)
  | set {before target later} : (∀ next, .change id (.set slot next) ∉ later) →
      LeavesIn id slot (before ++ .change id (.set slot target) :: later)
        (target :: added id slot later)

/-- What a row holds by the operations since its state was added. -/
structure HoldsSince (row : Row) (id : Nat) (since : List Operation) : Prop where
  targets : ∀ slot, LeavesIn id slot since (row.targets slot)
  initial_iff : row.initial = true ↔ .change id .markInitial ∈ since
  accepting_iff : row.accepting = true ↔ .change id .markAccepting ∈ since

variable {id : Nat} {slot : Slot} {operation : Operation} {operations history : List Operation}
  {targets : List Nat} {row : Row}

theorem after_concat (table : Table) (operations : List Operation) (operation : Operation) :
    table.after (operations ++ [operation]) = ((table.after operations).perform operation).2 :=
  List.foldl_append

theorem size_after (history : List Operation) :
    (empty.after history).size = history.count .addState := by
  induction history using List.reverseRecOn with
  | nil => rfl
  | append_singleton history operation ih =>
    rw [after_concat, size_perform, ih, List.count_append, List.count_singleton]
    simp

theorem added_concat_add (target : Nat) :
    added id slot (operations ++ [.change id (.add slot target)]) =
      added id slot operations ++ [target] := by
  simp [added]

theorem added_concat_other (other : ¬operation.Writes id slot) :
    added id slot (operations ++ [operation]) = added id slot operations := by
  rw [added, List.filterMap_append]
  refine (List.append_right_eq_self).2 ?_
  rw [List.filterMap_eq_nil_iff, List.forall_mem_singleton]
  split
  · next j s target =>
    refine if_neg ?_
    rintro ⟨rfl, rfl⟩
    exact other (.add target)
  · rfl

theorem LeavesIn.concat_add (h : LeavesIn id slot operations targets) (target : Nat) :
    LeavesIn id slot (operations ++ [.change id (.add slot target)]) (targets ++ [target]) := by
  cases h with
  | unset unset =>
    rw [← added_concat_add]
    exact .unset fun next mem => unset next (by simpa using mem)
  | set last =>
    rw [List.append_assoc, List.cons_append, List.cons_append, ← added_concat_add]
    exact .set fun next mem => last next (by simpa using mem)

theorem LeavesIn.concat_set (operations : List Operation) (target : Nat) :
    LeavesIn id slot (operations ++ [.change id (.set slot target)]) [target] :=
  .set fun _ => List.not_mem_nil

theorem LeavesIn.concat_other (h : LeavesIn id slot operations targets)
    (other : ¬operation.Writes id slot) : LeavesIn id slot (operations ++ [operation]) targets := by
  have unset {quiet : List Operation} (none : ∀ next, .change id (.set slot next) ∉ quiet)
      (next : Nat) : .change id (.set slot next) ∉ quiet ++ [operation] := by
    rw [List.mem_append, List.mem_singleton]
    rintro (mem | rfl)
    · exact none next mem
    · exact other (.set next)
  cases h with
  | unset none =>
    rw [← added_concat_other other]
    exact .unset (unset none)
  | set none =>
    rw [List.append_assoc, List.cons_append, ← added_concat_other other]
    exact .set (unset none)

theorem targets_onRow_of_not_writes (other : ¬operation.Writes id slot) (row : Row) :
    (operation.onRow id row).targets slot = row.targets slot := by
  cases operation with
  | addState => rfl
  | change j how =>
    rw [Operation.onRow]
    split
    · next same =>
      subst same
      cases how with
      | add s target =>
        rw [Row.apply, Row.targets_add, if_neg]
        rintro rfl
        exact other (.add target)
      | set s target =>
        rw [Row.apply, Row.targets_set, if_neg]
        rintro rfl
        exact other (.set target)
      | markInitial | markAccepting => rfl
    · rfl

theorem leavesIn_onRow (h : LeavesIn id slot operations (row.targets slot))
    (operation : Operation) :
    LeavesIn id slot (operations ++ [operation]) ((operation.onRow id row).targets slot) := by
  by_cases writes : operation.Writes id slot
  · cases writes with
    | add target =>
      rw [Operation.onRow, if_pos rfl, Row.apply, Row.targets_add, if_pos rfl]
      exact h.concat_add target
    | set target =>
      rw [Operation.onRow, if_pos rfl, Row.apply, Row.targets_set, if_pos rfl]
      exact .concat_set operations target
  · rw [targets_onRow_of_not_writes writes]
    exact h.concat_other writes

/-- The row of a new state holds nothing. -/
theorem holdsSince_empty (id : Nat) : HoldsSince .empty id [] where
  targets slot := by
    rw [Row.targets_empty]
    exact .unset fun _ => List.not_mem_nil
  initial_iff := iff_of_false Bool.false_ne_true List.not_mem_nil
  accepting_iff := iff_of_false Bool.false_ne_true List.not_mem_nil

theorem markers_onRow (id : Nat) (row : Row) (operation : Operation) :
    ((operation.onRow id row).initial = true ↔
        row.initial = true ∨ .change id .markInitial = operation) ∧
      ((operation.onRow id row).accepting = true ↔
        row.accepting = true ∨ .change id .markAccepting = operation) := by
  cases operation with
  | addState => simp [Operation.onRow]
  | change j how =>
    by_cases same : j = id
    · subst same
      cases how <;> simp [Operation.onRow, Row.apply, Row.add, Row.set, Row.markInitial,
        Row.markAccepting]
    · simp [Operation.onRow, same, Ne.symm same]

theorem HoldsSince.onRow (h : HoldsSince row id operations) (operation : Operation) :
    HoldsSince (operation.onRow id row) id (operations ++ [operation]) where
  targets slot := leavesIn_onRow (h.targets slot) operation
  initial_iff := by
    rw [(markers_onRow id row operation).1, h.initial_iff, List.mem_append, List.mem_singleton]
  accepting_iff := by
    rw [(markers_onRow id row operation).2, h.accepting_iff, List.mem_append, List.mem_singleton]

/-- Each state was added at some place, and its row holds what the operations since have left. -/
theorem exists_holdsSince (history : List Operation) (h : id < (empty.after history).size) :
    ∃ before since, history = before ++ .addState :: since ∧ before.count .addState = id ∧
      HoldsSince ((empty.after history).row id) id since := by
  induction history using List.reverseRecOn with
  | nil => exact absurd h (Nat.not_lt_zero id)
  | append_singleton history operation ih =>
    rw [after_concat] at h ⊢
    by_cases old : id < (empty.after history).size
    · obtain ⟨before, since, rfl, number, holds⟩ := ih old
      refine ⟨before, since ++ [operation], by simp, number, ?_⟩
      rw [row_perform old]
      exact holds.onRow operation
    · rw [size_perform] at h
      split at h
      · next new =>
        subst new
        have last : id = (empty.after history).size := by omega
        refine ⟨history, [], rfl, by rw [last, size_after], ?_⟩
        rw [last, perform, Table.row, row?_addState, if_pos rfl]
        exact holdsSince_empty _
      · omega

end Table

theorem Row.isDeterministic_iff {row : Row} : row.isDeterministic = true ↔
    row.targets .empty = [] ∧ ∀ slot, slot ≠ .empty → (row.targets slot).length ≤ 1 := by
  rw [isDeterministic, Bool.and_eq_true, List.isEmpty_iff, List.all_eq_true]
  refine and_congr_right fun _ => ⟨fun single slot consumes => ?_, fun few entry mem => ?_⟩
  · by_cases none : row.targets slot = []
    · rw [none]
      exact Nat.zero_le 1
    · have one := single (slot, row.targets slot) (mem_transitions_iff.2 ⟨consumes, none, rfl⟩)
      exact Nat.le_of_eq (beq_iff_eq.1 one)
  · obtain ⟨consumes, some, same⟩ := mem_transitions_iff.1 mem
    have le := few entry.1 consumes
    have pos := List.length_pos_iff.2 some
    rw [same] at le
    rw [beq_iff_eq]
    omega

namespace Table

theorem isDeterministic_iff {table : Table} : table.isDeterministic = true ↔
    ∀ id < table.size, (table.row id).targets .empty = [] ∧
      ∀ slot, slot ≠ .empty → ((table.row id).targets slot).length ≤ 1 := by
  rw [isDeterministic, Array.all_eq_true]
  refine forall_congr' fun id => forall_congr' fun inside => ?_
  have held : table.row id = table.rows[id] := by
    rw [row, row?, Array.getElem?_eq_getElem inside]
    rfl
  rw [held, Row.isDeterministic_iff]

/-- After any operations on a table without states, the states have been numbered in the order in
which they were added, and an operation on another state is refused and changes nothing. A state
holds in each slot what the operations since it was added have left there, and no operation but one
that writes to the slot changes this. The transitions of a state are its slots that consume a byte
and hold something, in order, and the table is deterministic just in case no state has an empty
transition or two targets in one slot. -/
theorem after_behaves_as_map (history : List Operation) :
    let table := empty.after history
    let minted := history.count .addState
    (table.perform .addState).1 = .minted minted ∧
      (∀ id how, minted ≤ id → table.perform (.change id how) = (.refused, table)) ∧
      (∀ id < minted, ∃ before since, history = before ++ .addState :: since ∧
        before.count .addState = id ∧ HoldsSince (table.row id) id since) ∧
      (∀ id < minted, ∀ slot operation, ¬operation.Writes id slot →
        ((table.perform operation).2.row id).targets slot = (table.row id).targets slot) ∧
      (∀ id, (table.row id).transitions =
        (Slot.consuming.filter fun slot => !((table.row id).targets slot).isEmpty).map
          fun slot => (slot, (table.row id).targets slot)) ∧
      (table.isDeterministic = true ↔ ∀ id < minted, (table.row id).targets .empty = [] ∧
        ∀ slot, slot ≠ .empty → ((table.row id).targets slot).length ≤ 1) := by
  intro table minted
  have size : table.size = minted := size_after history
  rw [← size]
  refine ⟨rfl, fun id how => (perform_refused · how), fun id inside => ?_, ?_, ?_, ?_⟩
  · exact exists_holdsSince history inside
  · intro id inside slot operation other
    rw [row_perform inside, targets_onRow_of_not_writes other]
  · exact fun id => (table.row id).transitions_eq
  · exact isDeterministic_iff

end Table

end LineGrep
