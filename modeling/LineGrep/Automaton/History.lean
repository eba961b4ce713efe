import LineGrep.Automaton.Table

/-!
Operations on a table. A state is added with the next number, and the row of a state can be changed.
An operation on a state that the table does not have is refused. Main statements say what each
operation does to the size and to each row.
-/

namespace LineGrep

/-- A change of the row of a state. -/
inductive Row.Change where
  | add (slot : Slot) (target : Nat)
  | set (slot : Slot) (target : Nat)
  | markInitial
  | markAccepting
  deriving DecidableEq, Repr

def Row.apply (row : Row) : Change → Row
  | .add slot target => row.add slot target
  | .set slot target => row.set slot target
  | .markInitial => row.markInitial
  | .markAccepting => row.markAccepting

namespace Table

inductive Operation where
  | addState
  | change (id : Nat) (how : Row.Change)
  deriving DecidableEq, Repr

inductive Answer where
  /-- A state was added with a number. -/
  | minted (id : Nat)
  | changed
  | refused
  deriving DecidableEq, Repr

def perform (table : Table) : Operation → Answer × Table
  | .addState => (.minted table.size, table.addState)
  | .change id how =>
    if id < table.size then (.changed, table.update id (·.apply how)) else (.refused, table)

/-- The table after operations in their order, whether they were refused or not. -/
def after (table : Table) (operations : List Operation) : Table :=
  operations.foldl (fun table operation => (table.perform operation).2) table

/-- What an operation does to the row of a state that the table has. -/
def Operation.onRow (id : Nat) (row : Row) : Operation → Row
  | .addState => row
  | .change other how => if other = id then row.apply how else row

theorem perform_refused {table : Table} {id : Nat} (h : table.size ≤ id) (how : Row.Change) :
    table.perform (.change id how) = (.refused, table) :=
  if_neg (Nat.not_lt.2 h)

theorem size_perform (table : Table) (operation : Operation) :
    (table.perform operation).2.size =
      table.size + if operation = .addState then 1 else 0 := by
  cases operation with
  | addState => exact table.size_addState
  | change id how =>
    rw [perform]
    split
    · exact table.size_update id _
    · rfl

theorem row_perform {table : Table} {id : Nat} (h : id < table.size) (operation : Operation) :
    (table.perform operation).2.row id = operation.onRow id (table.row id) := by
  cases operation with
  | addState =>
    have old : id ≠ table.size := Nat.ne_of_lt h
    rw [perform, row, row?_addState, if_neg old]
    rfl
  | change other how =>
    obtain ⟨held, has⟩ := Option.ne_none_iff_exists'.1 fun none =>
      Nat.not_le.2 h (row?_eq_none_iff.1 none)
    rw [perform, Operation.onRow]
    by_cases same : other = id
    · subst same
      rw [if_pos h, if_pos rfl, row, row, row?_update, if_pos rfl, has]
      rfl
    · rw [if_neg same]
      split
      · rw [row, row?_update, if_neg same]
        rfl
      · rfl

end Table

end LineGrep
