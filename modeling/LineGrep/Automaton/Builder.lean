import LineGrep.Automaton.Nfa

/-!
Automata built in place. The builder works on one table: it adds states as it comes to them and fills
their rows once it knows where they lead, a fork after both of its parts and the states of a
repetition after its body. A row can be filled only if the table has it. Main statements: the builder
leaves the table as it was with the fragment of the expression after it, and the automaton that it
builds is that of the expression.
-/

namespace LineGrep

namespace Table

/-- Changes the row of a state. There is no result if the table does not have the state. -/
def update? (table : Table) (id : Nat) (change : Row → Row) : Option Table :=
  if id < table.size then some (table.update id change) else none

/-- Lets a state go on to either of two others. -/
def fork? (table : Table) (id first second : Nat) : Option Table := do
  let table ← table.update? id (·.add .empty first)
  table.update? id (·.add .empty second)

/-- Adds two states that consume one byte and go on. -/
def single? (table : Table) (slot : Slot) (continuation : Nat) : Option (Table × Nat) := do
  let entry := table.size
  let next := entry + 1
  let table ← table.addState.addState.update? next (·.add .empty continuation)
  let table ← table.update? entry (·.add slot next)
  return (table, entry)

/-- Adds the states of an expression that go on to a continuation, with the state to enter. -/
def compile? : Regex → Table → (continuation : Nat) → Option (Table × Nat)
  | .literal b, table, continuation => table.single? (.byte b) continuation
  | .dot, table, continuation => table.single? .any continuation
  | .cat left right, table, continuation => do
    let (table, second) ← compile? right table continuation
    compile? left table second
  | .alt left right, table, continuation => do
    let (table, first) ← compile? left table continuation
    let (table, second) ← compile? right table continuation
    let entry := table.size
    let table ← table.addState.fork? entry first second
    return (table, entry)
  | .star body, table, continuation => do
    let entry := table.size
    let again := entry + 1
    let leave := entry + 2
    let (table, inner) ← compile? body table.addState.addState.addState again
    let table ← table.fork? entry inner leave
    let table ← table.fork? again inner leave
    let table ← table.update? leave (·.add .empty continuation)
    return (table, entry)

/-- A table with rows after its own. -/
def append (table : Table) (rows : List Row) : Table :=
  ⟨table.rows ++ rows.toArray⟩

@[simp] theorem size_append (table : Table) (rows : List Row) :
    (table.append rows).size = table.size + rows.length := by
  simp [append, size]

theorem append_append (table : Table) (front back : List Row) :
    (table.append front).append back = table.append (front ++ back) := by
  simp [append]

theorem addState_append (table : Table) (rows : List Row) :
    (table.append rows).addState = table.append (rows ++ [.empty]) := by
  simp [addState, append]

theorem row?_append (table : Table) (rows : List Row) (id : Nat) :
    (table.append rows).row? id =
      if id < table.size then table.row? id else rows[id - table.size]? := by
  simp only [append, row?, size, Array.getElem?_append, List.getElem?_toArray]
  rfl

/-- A row after those of the table is filled where it stands. -/
theorem update?_append (table : Table) (front back : List Row) (row : Row) (change : Row → Row) :
    (table.append (front ++ row :: back)).update? (table.size + front.length) change =
      some (table.append (front ++ change row :: back)) := by
  have inside : table.size + front.length < (table.append (front ++ row :: back)).size := by
    simp
  rw [update?, if_pos inside, Option.some_inj]
  have filled : front ++ change row :: back = (front ++ row :: back).set front.length (change row) := by
    simp
  refine Table.ext (Array.ext_getElem? fun id => ?_)
  refine (row?_update _ _ _ _).trans (?_ : _ = (table.append _).row? id)
  rw [row?_append, row?_append, filled, List.getElem?_set]
  by_cases old : id < table.size
  · rw [if_pos old, if_pos old, if_neg (by omega)]
  · rw [if_neg old, if_neg old]
    by_cases here : table.size + front.length = id
    · subst here
      simp
    · rw [if_neg here, if_neg (by omega)]

theorem fork?_append (table : Table) (front back : List Row) (first second : Nat) :
    (table.append (front ++ .empty :: back)).fork? (table.size + front.length) first second =
      some (table.append (front ++ Fragment.fork first second :: back)) := by
  rw [fork?, update?_append]
  exact update?_append table front back _ _

/-- A fork that is added last is filled at once. -/
theorem fork?_addState (table : Table) (first second : Nat) :
    table.addState.fork? table.size first second =
      some (table.append [Fragment.fork first second]) :=
  fork?_append table [] [] first second

theorem single?_eq (table : Table) (slot : Slot) (continuation : Nat) :
    table.single? slot continuation =
      some (table.append (Fragment.single slot table.size continuation).rows, table.size) := by
  have added : table.addState.addState = table.append [.empty, .empty] :=
    addState_append table [.empty]
  have next : (table.append [.empty, .empty]).update? (table.size + 1) (·.add .empty continuation) =
      some (table.append [.empty, Row.empty.add .empty continuation]) :=
    update?_append table [.empty] [] .empty _
  have entry := update?_append table [] [Row.empty.add .empty continuation] .empty
    (·.add slot (table.size + 1))
  simp only [single?, added, next, Option.bind_eq_bind, Option.bind_some]
  exact congrArg (Option.bind · _) entry

/-- The builder leaves the table as it was with the fragment of the expression after it. -/
theorem compile?_eq (t : Regex) (table : Table) (continuation : Nat) :
    table.compile? t continuation =
      let fragment := Fragment.ofRegex t table.size continuation
      some (table.append fragment.rows, fragment.entry) := by
  induction t generalizing table continuation with
  | literal | dot => exact table.single?_eq _ continuation
  | cat left right ihl ihr =>
    simp only [compile?, ihr, ihl, Option.bind_eq_bind, Option.bind_some, append_append,
      size_append, Fragment.ofRegex]
  | alt left right ihl ihr =>
    simp only [compile?, ihl, ihr, fork?_addState, Option.bind_eq_bind, Option.bind_some,
      append_append, size_append, List.append_assoc, Fragment.ofRegex]
    rfl
  | star body ih =>
    have added : table.addState.addState.addState = table.append [.empty, .empty, .empty] :=
      addState_append table [.empty, .empty]
    -- The three states are filled behind the rows of the table and before those of the body.
    have enter (rows : List Row) (first second : Nat) :
        (table.append ([.empty, .empty, .empty] ++ rows)).fork? table.size first second = some
          (table.append (Fragment.fork first second :: .empty :: .empty :: rows)) :=
      fork?_append table [] (.empty :: .empty :: rows) first second
    have again (row : Row) (rows : List Row) (first second : Nat) :
        (table.append (row :: .empty :: .empty :: rows)).fork? (table.size + 1) first second = some
          (table.append (row :: Fragment.fork first second :: .empty :: rows)) :=
      fork?_append table [row] (.empty :: rows) first second
    have leave (row row' : Row) (rows : List Row) :
        (table.append (row :: row' :: .empty :: rows)).update? (table.size + 2)
          (·.add .empty continuation) = some
          (table.append (row :: row' :: Row.empty.add .empty continuation :: rows)) :=
      update?_append table [row, row'] rows .empty _
    simp only [compile?, added, ih, size_append, append_append, enter, again, leave,
      Option.bind_eq_bind, Option.bind_some]
    rfl

end Table

namespace Nfa

/-- Builds the automaton of an expression: the accepting state comes first. -/
def build? (t : Regex) : Option Nfa := do
  let accept := Table.empty.size
  let table ← Table.empty.addState.update? accept Row.markAccepting
  let (table, initial) ← table.compile? t accept
  let table ← table.update? initial Row.markInitial
  return ⟨table, initial, accept⟩

/-- The automaton that is built is that of the expression. -/
theorem build?_eq (t : Regex) : build? t = some (ofRegex t) := by
  let fragment := Fragment.ofRegex t 1 0
  let built : Table := ⟨(Row.empty.markAccepting :: fragment.rows).toArray⟩
  have accept : Table.empty.addState.update? Table.empty.size Row.markAccepting =
      some ⟨#[Row.empty.markAccepting]⟩ := rfl
  have compiled : Table.compile? t ⟨#[Row.empty.markAccepting]⟩ Table.empty.size =
      some (built, fragment.entry) := by
    rw [Table.compile?_eq]
    simp [Table.append, built, fragment, Table.size, Table.empty]
  have entry : fragment.entry < built.size := by
    have size : built.size = Fragment.stateCount t + 1 := by
      simp [built, fragment, Table.size, Fragment.length_rows]
    rw [size, Nat.add_comm]
    exact (Fragment.entry_mem t 1 0).2
  have marked : built.update? fragment.entry Row.markInitial =
      some (built.update fragment.entry Row.markInitial) := if_pos entry
  simp only [build?, accept, compiled, marked, Option.bind_eq_bind, Option.bind_some]
  rfl

end Nfa

end LineGrep
