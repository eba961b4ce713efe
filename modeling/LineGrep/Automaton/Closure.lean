import LineGrep.Automaton.StateSet
import LineGrep.Automaton.Table
import LineGrep.Automaton.Worklist

/-!
The states that a table reaches through empty transitions. Main statement: the closure of a list of
states holds exactly the states of the table that are reached from the list.
-/

namespace LineGrep.Table

/-- One state is reached from another through empty transitions between states of the table. -/
inductive Reaches (table : Table) : Nat → Nat → Prop where
  | refl {id} : id < table.size → Reaches table id id
  | step {id next last} : id < table.size → next ∈ (table.row id).targets .empty →
      Reaches table next last → Reaches table id last

/-- Follows empty transitions from the states to do and adds what it finds to the states seen. -/
def spread (table : Table) (seen : List Nat) : List Nat → List Nat
  | [] => seen
  | id :: rest =>
    if _new : id < table.size ∧ id ∉ seen then
      spread table (id :: seen) ((table.row id).targets .empty ++ rest)
    else spread table seen rest
termination_by todo => (Worklist.unseen (List.range table.size) seen, todo.length)
decreasing_by
  · exact Prod.Lex.left _ _ (Worklist.unseen_lt (fun _ => List.mem_cons_of_mem _)
      (List.mem_range.2 _new.1) _new.2 List.mem_cons_self)
  · exact Prod.Lex.right _ (by simp)

/-- The states that are reached from the given ones through empty transitions. -/
def closure (table : Table) (seeds : List Nat) : StateSet :=
  .ofList (table.spread [] seeds)

/-- Follows empty transitions in the same way, and fails at a state that the table does not have. -/
def spread? (table : Table) (seen : List Nat) : List Nat → Option (List Nat)
  | [] => some seen
  | id :: rest =>
    if _old : id ∈ seen then spread? table seen rest
    else if _inside : id < table.size then
      spread? table (id :: seen) ((table.row id).targets .empty ++ rest)
    else none
termination_by todo => (Worklist.unseen (List.range table.size) seen, todo.length)
decreasing_by
  · exact Prod.Lex.right _ (by simp)
  · exact Prod.Lex.left _ _ (Worklist.unseen_lt (fun _ => List.mem_cons_of_mem _)
      (List.mem_range.2 _inside) _old List.mem_cons_self)

/-- The closure of states, none of which may lead to a state that the table does not have. -/
def closure? (table : Table) (seeds : List Nat) : Option StateSet :=
  (table.spread? [] seeds).map .ofList

theorem spread_bounded {table : Table} {seen todo : List Nat}
    (h : ∀ id ∈ seen, id < table.size) : ∀ id ∈ table.spread seen todo, id < table.size := by
  fun_induction spread table seen todo with
  | case1 => exact h
  | case2 seen id rest hid ih =>
    refine ih fun x mem => ?_
    rcases List.mem_cons.1 mem with rfl | mem
    · exact hid.1
    · exact h x mem
  | case3 _ _ _ _ ih => exact ih h

theorem spread?_bounded {table : Table} {seen todo found : List Nat}
    (h : ∀ id ∈ seen, id < table.size) (spread : table.spread? seen todo = some found) :
    ∀ id ∈ found, id < table.size := by
  fun_induction spread? table seen todo with
  | case1 seen =>
    cases spread
    exact h
  | case2 _ _ _ _ ih => exact ih h spread
  | case3 seen id rest _ inside ih =>
    refine ih (fun x mem => ?_) spread
    rcases List.mem_cons.1 mem with rfl | mem
    · exact inside
    · exact h x mem
  | case4 => cases spread

theorem closure_bounded {table : Table} {seeds : List Nat} {id : Nat}
    (h : id ∈ table.closure seeds) : id < table.size :=
  spread_bounded (fun _ mem => absurd mem List.not_mem_nil) id (StateSet.mem_ofList.1 h)

end LineGrep.Table
