import LineGrep.Proofs.Automaton.Thompson
import Mathlib.Logic.Relation
import Mathlib.Order.Bounds.Basic

/-!
The closure of states as a set of its own. In the automaton of an expression no transition leaves
the table, so the search for a closure fails at a seed that the table does not have or not at all.
Main statement: the closure is the least set that holds the seeds and that no empty transition
leaves; it depends on the seeds as a set, adds nothing to itself and turns the seeds of two lists
into the states of two closures.
-/

namespace LineGrep

namespace Table

variable {table : Table} {seeds others seen : List Nat} {set : StateSet} {id last : Nat}

/-- An empty transition leads from one state to another. -/
def EmptyStep (table : Table) (id next : Nat) : Prop :=
  next ∈ (table.row id).targets .empty

/-- The states of a table that are reached are those to which empty transitions lead. -/
theorem Bounded.reaches_iff (bounded : table.Bounded) (inside : id < table.size) :
    table.Reaches id last ↔ Relation.ReflTransGen table.EmptyStep id last := by
  constructor
  · intro reach
    clear inside
    induction reach with
    | refl => exact .refl
    | step _ target _ ih => exact .head target ih
  · intro steps
    induction steps with
    | refl => exact .refl inside
    | tail _ target ih => exact ih.trans (bounded.reaches_of_mem_targets target)

/-- The search that can fail finds what the other one finds, unless one of the states to do is
outside the table. -/
theorem Bounded.spread?_eq (bounded : table.Bounded) (todo : List Nat)
    (known : ∀ id ∈ seen, id < table.size) :
    table.spread? seen todo =
      if ∀ id ∈ todo, id < table.size then some (table.spread seen todo) else none := by
  fun_induction spread? table seen todo with
  | case1 seen => simp [spread]
  | case2 seen id rest old ih =>
    rw [ih known, spread, dif_neg (fun new => new.2 old)]
    simp only [List.forall_mem_cons, known id old, true_and]
  | case3 seen id rest fresh inside ih =>
    have step : table.spread seen (id :: rest) =
        table.spread (id :: seen) ((table.row id).targets .empty ++ rest) := by
      rw [spread, dif_pos ⟨inside, fresh⟩]
    have targets : ∀ next ∈ (table.row id).targets .empty, next < table.size :=
      bounded id .empty
    rw [ih (List.forall_mem_cons.2 ⟨inside, known⟩), step]
    simp only [List.forall_mem_append, List.forall_mem_cons, inside, true_and, and_iff_right targets]
  | case4 seen id rest _ outside =>
    rw [if_neg]
    intro all
    exact outside (all id List.mem_cons_self)

theorem Bounded.closure?_eq (bounded : table.Bounded) (seeds : List Nat) :
    table.closure? seeds =
      if ∀ seed ∈ seeds, seed < table.size then some (table.closure seeds) else none := by
  rw [closure?, bounded.spread?_eq seeds (List.forall_mem_nil _),
    apply_ite (Option.map StateSet.ofList)]
  rfl

theorem Bounded.closure?_eq_none_iff (bounded : table.Bounded) :
    table.closure? seeds = none ↔ ∃ seed ∈ seeds, table.size ≤ seed := by
  rw [bounded.closure?_eq]
  simp

theorem Bounded.closure?_eq_some_iff (bounded : table.Bounded) :
    table.closure? seeds = some set ↔
      (∀ seed ∈ seeds, seed < table.size) ∧ table.closure seeds = set := by
  rw [bounded.closure?_eq]
  simp

/-- A set holds its seeds, and no empty transition leaves it. -/
structure ClosedOver (table : Table) (seeds : List Nat) (states : Set Nat) : Prop where
  seeds : ∀ seed ∈ seeds, seed ∈ states
  closed : ∀ id ∈ states, ∀ next, table.EmptyStep id next → next ∈ states

/-- A set of states is the closure of a list of states: sorted, without repetitions, made of the
states to which empty transitions lead from the list, and least among the sets that hold the list
and that no empty transition leaves. -/
structure IsClosure (table : Table) (seeds : List Nat) (set : StateSet) : Prop where
  sorted : set.ids.Pairwise (· < ·)
  mem_iff : ∀ id, id ∈ set ↔ ∃ seed ∈ seeds, Relation.ReflTransGen table.EmptyStep seed id
  least : IsLeast {states | table.ClosedOver seeds states} {id | id ∈ set}

theorem ClosedOver.mem_of_steps {states : Set Nat} (h : table.ClosedOver seeds states) {seed : Nat}
    (mem : seed ∈ seeds) (steps : Relation.ReflTransGen table.EmptyStep seed id) : id ∈ states := by
  induction steps with
  | refl => exact h.seeds seed mem
  | tail _ target ih => exact h.closed _ ih _ target

theorem isLeast_of_mem_iff (mem_iff : ∀ id, id ∈ set ↔
      ∃ seed ∈ seeds, Relation.ReflTransGen table.EmptyStep seed id) :
    IsLeast {states | table.ClosedOver seeds states} {id | id ∈ set} := by
  refine ⟨⟨fun seed mem => (mem_iff seed).2 ⟨seed, mem, .refl⟩, ?_⟩, ?_⟩
  · intro id mem next target
    obtain ⟨seed, held, steps⟩ := (mem_iff id).1 mem
    exact (mem_iff next).2 ⟨seed, held, steps.tail target⟩
  · intro states closed id mem
    obtain ⟨seed, held, steps⟩ := (mem_iff id).1 mem
    exact closed.mem_of_steps held steps

theorem Bounded.isClosure_closure (bounded : table.Bounded)
    (inside : ∀ seed ∈ seeds, seed < table.size) : table.IsClosure seeds (table.closure seeds) := by
  have mem_iff (id : Nat) : id ∈ table.closure seeds ↔
      ∃ seed ∈ seeds, Relation.ReflTransGen table.EmptyStep seed id := by
    rw [mem_closure_iff]
    constructor
    · rintro ⟨seed, mem, reach⟩
      exact ⟨seed, mem, (bounded.reaches_iff (inside seed mem)).1 reach⟩
    · rintro ⟨seed, mem, steps⟩
      exact ⟨seed, mem, (bounded.reaches_iff (inside seed mem)).2 steps⟩
  exact ⟨StateSet.sorted _, mem_iff, isLeast_of_mem_iff mem_iff⟩

end Table

namespace Nfa

/-- The closure of a list of states of the automaton of an expression. There is none exactly if one
of the states is none of the automaton. Otherwise it is the least set that holds the list and that
no empty transition leaves. It is its own closure, lists with the same elements have the same
closure, and the closure of two lists put together is the union of theirs. -/
theorem closure_least_closed (t : Regex) :
    let table := (ofRegex t).table
    (∀ seeds, table.closure? seeds = none ↔ ∃ seed ∈ seeds, table.size ≤ seed) ∧
      (∀ seeds set, table.closure? seeds = some set →
        table.IsClosure seeds set ∧ table.closure? set.ids = some set) ∧
      (∀ seeds others, (∀ id, id ∈ seeds ↔ id ∈ others) →
        table.closure? seeds = table.closure? others) ∧
      ∀ first second a b, table.closure? first = some a → table.closure? second = some b →
        ∃ both, table.closure? (first ++ second) = some both ∧ ∀ id, id ∈ both ↔ id ∈ a ∨ id ∈ b := by
  intro table
  have bounded : table.Bounded := (rooted_ofRegex t).bounded
  refine ⟨fun seeds => bounded.closure?_eq_none_iff, ?_, ?_, ?_⟩
  · intro seeds set found
    obtain ⟨inside, rfl⟩ := bounded.closure?_eq_some_iff.1 found
    refine ⟨bounded.isClosure_closure inside, bounded.closure?_eq_some_iff.2 ⟨?_, ?_⟩⟩
    · exact fun id mem => Table.closure_bounded mem
    · exact Table.closure_ids_closure seeds
  · intro seeds others same
    rw [bounded.closure?_eq, bounded.closure?_eq, Table.closure_congr same]
    simp only [same]
  · intro first second a b found found'
    obtain ⟨inside, rfl⟩ := bounded.closure?_eq_some_iff.1 found
    obtain ⟨inside', rfl⟩ := bounded.closure?_eq_some_iff.1 found'
    refine ⟨_, bounded.closure?_eq_some_iff.2 ⟨?_, rfl⟩, fun id => Table.mem_closure_append_iff⟩
    exact List.forall_mem_append.2 ⟨inside, inside'⟩

end Nfa

end LineGrep
