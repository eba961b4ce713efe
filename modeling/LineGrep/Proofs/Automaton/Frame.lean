import LineGrep.Automaton.Builder
import LineGrep.Proofs.Automaton.Thompson

/-!
What the builder does to a table that has states already. It only adds rows, and these form a part of
their own: their transitions stay among them, apart from empty ones to the continuation, and none of
them comes back to the entry. Main statement: compiling an expression leaves the old rows alone, and
a walk from the entry leaves the added rows by an empty transition to the continuation only.
-/

namespace LineGrep.Table

variable {table : Table}

/-- A walk whose states all have a property, the last one included. -/
inductive WalkWithin (table : Table) (p : Nat → Prop) : Nat → Nat → List UInt8 → Nat → Prop where
  | nil {id} : p id → WalkWithin table p 0 id [] id
  | cons {n id next last s u v} : p id → next ∈ (table.row id).targets s → Slot.Consumes s u →
      WalkWithin table p n next v last → WalkWithin table p (n + 1) id (u ++ v) last

/-- A walk keeps to the states with a property up to some state, goes from there by an empty
transition to a given state without the property, and goes on. -/
def LeavesTo (table : Table) (p : Nat → Prop) (outer n first : Nat) (w : List UInt8) (last : Nat) :
    Prop :=
  ∃ k m exit u v, n = k + 1 + m ∧ w = u ++ v ∧ table.WalkWithin p k first u exit ∧
    outer ∈ (table.row exit).targets .empty ∧ ¬p outer ∧ table.Walk m outer v last

/-- If the only way from states with a property to others is an empty transition to a given state,
each walk to another state takes it. -/
theorem Walk.leavesTo {p : Nat → Prop} {outer n first last : Nat} {w : List UInt8}
    (stays : ∀ id, p id → ∀ slot, ∀ next ∈ (table.row id).targets slot,
      p next ∨ slot = .empty ∧ next = outer)
    (walk : table.Walk n first w last) (inside : p first) (outside : ¬p last) :
    table.LeavesTo p outer n first w last := by
  induction walk with
  | nil => exact absurd inside outside
  | @cons n id next last slot u v target consumes rest ih =>
    by_cases again : p next
    · obtain ⟨k, m, exit, u', v', rfl, rfl, within, out, other, rest⟩ := ih again outside
      exact ⟨k + 1, m, exit, u ++ u', v', by omega, by rw [List.append_assoc],
        .cons inside target consumes within, out, other, rest⟩
    · obtain ⟨rfl, rfl⟩ := (stays id inside slot next target).resolve_left again
      obtain rfl : u = [] := consumes
      exact ⟨0, n, id, [], v, by omega, rfl, .nil inside, target, again, rest⟩

/-- The state is one of those that `built` has beyond those of `table`. -/
def Added (table built : Table) (id : Nat) : Prop :=
  table.size ≤ id ∧ id < built.size

theorem row?_append_of_lt {rows : List Row} {id : Nat} (h : id < table.size) :
    (table.append rows).row? id = table.row? id := by
  rw [row?_append, if_pos h]

/-- The row of an added state is one of the rows that were appended. -/
theorem row_append_mem {rows : List Row} {id : Nat} (added : table.Added (table.append rows) id) :
    (table.append rows).row id ∈ rows := by
  obtain ⟨above, below⟩ := added
  rw [size_append] at below
  have place : rows[id - table.size]? = some rows[id - table.size] :=
    List.getElem?_eq_getElem (by omega)
  rw [row, row?_append, if_neg (Nat.not_lt.2 above), place]
  exact List.getElem_mem _

/-- Compiling an expression always has a result. It leaves the rows of the table as they were and adds
others. A transition of an added row leads to an added row, or it is empty and leads to the
continuation. The entry is an added row, to which no added row leads; only a continuation that is not
a state of the table could have the number of the entry, and be led to for that. And each walk from
the entry to a state that was not added leaves the added rows by an empty transition to the
continuation. -/
theorem compile_appends (t : Regex) (table : Table) (continuation : Nat) :
    ∃ built entry, table.compile? t continuation = some (built, entry) ∧
      table.size ≤ built.size ∧ (∀ id < table.size, built.row? id = table.row? id) ∧
      (∀ id, table.Added built id → ∀ slot, ∀ next ∈ (built.row id).targets slot,
        table.Added built next ∨ slot = .empty ∧ next = continuation) ∧
      table.Added built entry ∧
      (∀ id, table.Added built id → ∀ slot, entry ∈ (built.row id).targets slot →
        entry = continuation) ∧
      (continuation < table.size → ∀ id, table.Added built id → ∀ slot,
        entry ∉ (built.row id).targets slot) ∧
      ∀ n w last, built.Walk n entry w last → ¬table.Added built last →
        built.LeavesTo (table.Added built) continuation n entry w last := by
  let fragment := Fragment.ofRegex t table.size continuation
  let built := table.append fragment.rows
  have size : built.size = table.size + Fragment.stateCount t := by
    rw [size_append, Fragment.length_rows]
  have target {id next : Nat} {slot : Slot} (added : table.Added built id)
      (mem : next ∈ (built.row id).targets slot) :=
    Fragment.mem_targets_ofRegex (row_append_mem added) mem
  have entry : table.Added built fragment.entry := by
    rw [Added, size]
    exact Fragment.entry_mem t table.size continuation
  have stays (id : Nat) (added : table.Added built id) (slot : Slot) (next : Nat)
      (mem : next ∈ (built.row id).targets slot) :
      table.Added built next ∨ slot = .empty ∧ next = continuation := by
    rcases target added mem with out | ⟨above, below, -⟩
    · exact Or.inr out
    · exact Or.inl ⟨above, size ▸ below⟩
  have back (id : Nat) (added : table.Added built id) (slot : Slot)
      (mem : fragment.entry ∈ (built.row id).targets slot) : fragment.entry = continuation := by
    rcases target added mem with ⟨-, same⟩ | ⟨-, -, other⟩
    · exact same
    · exact absurd rfl other
  refine ⟨built, fragment.entry, compile?_eq t table continuation, by omega,
    fun id old => row?_append_of_lt old, stays, entry, back, ?_, ?_⟩
  · intro old id added slot mem
    have same := back id added slot mem
    have above := entry.1
    omega
  · exact fun n w last walk outside => walk.leavesTo stays entry outside

theorem compile_behind_forward_state :
    let table := Table.empty.addState.addState.update 1 (·.add .any 2)
    0 < table.size ∧ ∃ built entry, table.compile? (.star (.literal 97)) 0 = some (built, entry) ∧
      built.row? 1 = table.row? 1 ∧ ∀ slot, entry ∉ (built.row entry).targets slot := by
  intro table
  have size : table.size = 2 := by
    rw [size_update, size_addState, size_addState]
    rfl
  have old : 0 < table.size := by omega
  obtain ⟨built, entry, compiled, -, kept, -, added, -, fresh, -⟩ :=
    compile_appends (.star (.literal 97)) table 0
  exact ⟨old, built, entry, compiled, kept 1 (by omega), fresh old entry added⟩

end LineGrep.Table
