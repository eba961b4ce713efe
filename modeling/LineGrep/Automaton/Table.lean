import LineGrep.Automaton.Slot
import LineGrep.Text.Decimal

/-!
Transition tables. A row holds the transitions that leave one state, with the order and the
repetitions in which they were added, and its two markers. It has a column for each slot, whether
or not the slot has targets. The states of a table are numbered from zero as they are added. Main
statements say what each operation does to the targets of each row.
-/

namespace LineGrep

@[ext] structure Row where
  /-- The targets by column. -/
  columns : Vector (List Nat) Slot.columnCount
  initial : Bool
  accepting : Bool

namespace Row

def empty : Row :=
  ⟨.replicate _ [], false, false⟩

def targets (row : Row) (slot : Slot) : List Nat :=
  row.columns[slot.index]

def target (row : Row) (slot : Slot) : Option Nat :=
  (row.targets slot).head?

def add (slot : Slot) (target : Nat) (row : Row) : Row :=
  { row with columns := row.columns.set slot.column (row.targets slot ++ [target]) slot.column_lt }

def set (slot : Slot) (target : Nat) (row : Row) : Row :=
  { row with columns := row.columns.set slot.column [target] slot.column_lt }

/-- Sets slots one after the other. -/
def setAll (row : Row) (moves : List (Slot × Nat)) : Row :=
  moves.foldl (fun row move => row.set move.1 move.2) row

def markInitial (row : Row) : Row :=
  { row with initial := true }

def markAccepting (row : Row) : Row :=
  { row with accepting := true }

/-- The transitions that consume a byte, in the order of their columns. -/
def transitions (row : Row) : List (Slot × List Nat) :=
  ((row.columns.toList.take Slot.empty.column).zipIdx.filter fun cell => !cell.1.isEmpty).map
    fun cell => (Slot.ofColumn cell.2, cell.1)

/-- All transitions in the order of their columns. -/
def entries (row : Row) : List (Slot × List Nat) :=
  (row.transitions ++ [(Slot.empty, row.targets .empty)]).filter fun entry => !entry.2.isEmpty

/-- Whether no transition is empty and no two have the same label. -/
def isDeterministic (row : Row) : Bool :=
  (row.targets .empty).isEmpty && row.transitions.all fun entry => entry.2.length == 1

/-- The targets of a slot as tables show them: a single one as it is, several between braces. -/
def targetsText : List Nat → List Char
  | [target] => Text.decimal target
  | targets => '\x7b' :: Text.commaSeparated (targets.map Text.decimal) ++ ['\x7d']

def entryText (entry : Slot × List Nat) : List Char :=
  entry.1.text ++ " -> ".toList ++ targetsText entry.2

def text (row : Row) : List Char :=
  let start := if row.initial then ["INIT".toList] else []
  let accept := if row.accepting then ["ACCEPT".toList] else []
  Text.commaSeparated (row.entries.map entryText ++ start ++ accept)

@[simp] theorem targets_empty (s : Slot) : empty.targets s = [] :=
  Vector.getElem_replicate s.column_lt

theorem targets_add (row : Row) (slot s : Slot) (target : Nat) :
    (row.add slot target).targets s =
      if s = slot then row.targets s ++ [target] else row.targets s := by
  rw [targets, add, Fin.getElem_fin, Vector.getElem_set]
  split
  · next same => rw [if_pos (Slot.column_inj same).symm, Slot.column_inj same]
  · next other => rw [if_neg fun same => other (congrArg Slot.column same.symm)]; rfl

theorem targets_set (row : Row) (slot s : Slot) (target : Nat) :
    (row.set slot target).targets s = if s = slot then [target] else row.targets s := by
  rw [targets, set, Fin.getElem_fin, Vector.getElem_set]
  split
  · next same => rw [if_pos (Slot.column_inj same).symm]
  · next other => rw [if_neg fun same => other (congrArg Slot.column same.symm)]; rfl

theorem targets_setAll (row : Row) (slots : List Slot) (target : Slot → Nat) (s : Slot) :
    (row.setAll (slots.map fun slot => (slot, target slot))).targets s =
      if s ∈ slots then [target s] else row.targets s := by
  induction slots generalizing row with
  | nil => rfl
  | cons slot slots ih =>
    refine (ih (row.set slot (target slot))).trans ?_
    by_cases later : s ∈ slots
    · rw [if_pos later, if_pos (List.mem_cons_of_mem _ later)]
    · rw [if_neg later, targets_set]
      by_cases same : s = slot <;> simp [same, later]

theorem targets_markAccepting (row : Row) (s : Slot) :
    row.markAccepting.targets s = row.targets s := rfl

theorem zipIdx_take_columns (row : Row) {k : Nat} (h : k ≤ Slot.columnCount) :
    (row.columns.toList.take k).zipIdx =
      (List.range k).map fun n => (row.targets (Slot.ofColumn n), n) := by
  refine List.ext_getElem (by simp [Nat.min_eq_left h]) fun n inside _ => ?_
  have column : n < Slot.columnCount := by
    simp only [List.length_zipIdx, List.length_take, Vector.length_toList] at inside
    omega
  simp [targets, Slot.index, Slot.column_ofColumn column]

/-- The slots that consume a byte and have targets, with their targets. -/
theorem transitions_eq (row : Row) : row.transitions =
    (Slot.consuming.filter fun slot => !(row.targets slot).isEmpty).map fun slot =>
      (slot, row.targets slot) := by
  have columns : Slot.empty.column ≤ Slot.columnCount := Nat.le_of_lt Slot.empty.column_lt
  rw [transitions, zipIdx_take_columns row columns, ← Slot.map_ofColumn_range, List.filter_map,
    List.filter_map, List.map_map, List.map_map]
  rfl

/-- The transitions are those of the byte slots and the wildcard that have targets. -/
theorem mem_transitions_iff {row : Row} {slot : Slot} {targets : List Nat} :
    (slot, targets) ∈ row.transitions ↔
      slot ≠ .empty ∧ targets ≠ [] ∧ row.targets slot = targets := by
  simp only [transitions_eq, List.mem_map, List.mem_filter, Slot.mem_consuming_iff,
    Prod.mk.injEq, Bool.not_eq_true', List.isEmpty_eq_false_iff]
  constructor
  · rintro ⟨s, ⟨consumes, ne⟩, rfl, rfl⟩
    exact ⟨consumes, ne, rfl⟩
  · rintro ⟨consumes, ne, rfl⟩
    exact ⟨slot, ⟨consumes, ne⟩, rfl, rfl⟩

theorem mem_entries_iff {row : Row} {slot : Slot} {targets : List Nat} :
    (slot, targets) ∈ row.entries ↔ targets ≠ [] ∧ row.targets slot = targets := by
  simp only [entries, List.mem_filter, List.mem_append, mem_transitions_iff, List.mem_singleton,
    Prod.mk.injEq, Bool.not_eq_true', List.isEmpty_eq_false_iff]
  constructor
  · rintro ⟨⟨-, -, held⟩ | ⟨rfl, rfl⟩, some⟩
    · exact ⟨some, held⟩
    · exact ⟨some, rfl⟩
  · rintro ⟨some, rfl⟩
    by_cases last : slot = .empty
    · exact ⟨Or.inr ⟨last, by rw [last]⟩, some⟩
    · exact ⟨Or.inl ⟨last, some, rfl⟩, some⟩

/-- A row is determined by what its slots hold and by its markers. -/
theorem ext_targets {a b : Row} (targets : ∀ slot, a.targets slot = b.targets slot)
    (initial : a.initial = b.initial) (accepting : a.accepting = b.accepting) : a = b := by
  refine Row.ext (Vector.ext fun n inside => ?_) initial accepting
  have same := targets (Slot.ofColumn n)
  simpa [Row.targets, Slot.index, Slot.column_ofColumn inside] using same

end Row

@[ext] structure Table where
  rows : Array Row

namespace Table

def empty : Table :=
  ⟨#[]⟩

/-- The number of states, which is the number that the next state will get. -/
def size (table : Table) : Nat :=
  table.rows.size

def isEmpty (table : Table) : Bool :=
  table.size = 0

/-- The row of a state, if the table has the state. -/
def row? (table : Table) (id : Nat) : Option Row :=
  table.rows[id]?

/-- The row of a state, with no transitions if the table does not have the state. -/
def row (table : Table) (id : Nat) : Row :=
  (table.row? id).getD .empty

/-- The table with one more state, which has no transitions. -/
def addState (table : Table) : Table :=
  ⟨table.rows.push .empty⟩

/-- Changes the row of a state. A table that does not have the state is left as it is. -/
def update (table : Table) (id : Nat) (change : Row → Row) : Table :=
  ⟨table.rows.modify id change⟩

def isDeterministic (table : Table) : Bool :=
  table.rows.all Row.isDeterministic

def lines (table : Table) : List (List Char) :=
  table.rows.toList.mapIdx fun id row => Text.decimal id ++ [':', ' '] ++ row.text

/-- The lines of a table, each with a line feed. -/
def text (table : Table) : List Char :=
  table.lines.flatMap (· ++ ['\n'])

@[simp] theorem size_addState (table : Table) : table.addState.size = table.size + 1 := by
  simp [addState, size]

@[simp] theorem size_update (table : Table) (id : Nat) (change : Row → Row) :
    (table.update id change).size = table.size := by
  simp [update, size]

theorem row?_addState (table : Table) (id : Nat) :
    table.addState.row? id = if id = table.size then some .empty else table.row? id := by
  simp only [addState, row?, size, Array.getElem?_push]
  congr

theorem row?_update (table : Table) (id other : Nat) (change : Row → Row) :
    (table.update id change).row? other =
      if id = other then (table.row? other).map change else table.row? other := by
  simp [update, row?, Array.getElem?_modify]

theorem row?_eq_none_iff {table : Table} {id : Nat} : table.row? id = none ↔ table.size ≤ id := by
  simp [row?, size]

theorem row_of_size_le {table : Table} {id : Nat} (h : table.size ≤ id) : table.row id = .empty := by
  rw [row, row?_eq_none_iff.2 h]
  rfl

end Table

end LineGrep
