import LineGrep.Automaton.Closure

/-!
The closure of a list of states. The search that finds it keeps an invariant: where an empty
transition leads from a state seen, it leads to a state seen or to one still to do. Main statement:
the closure holds exactly the states that are reached from the list.
-/

namespace LineGrep.Table

variable {table : Table}

theorem Reaches.left_lt {id last : Nat} (h : table.Reaches id last) : id < table.size := by
  cases h <;> assumption

theorem Reaches.trans {first middle last : Nat} (h : table.Reaches first middle)
    (h' : table.Reaches middle last) : table.Reaches first last := by
  induction h with
  | refl => exact h'
  | step lt mem _ ih => exact .step lt mem (ih h')

/-- Where empty transitions lead from the states seen, these are seen or still to do. -/
def Spreading (table : Table) (seen todo : List Nat) : Prop :=
  ∀ id ∈ seen, ∀ next ∈ (table.row id).targets .empty, next < table.size → next ∈ seen ∨ next ∈ todo

theorem Spreading.visit {seen rest : List Nat} {id : Nat}
    (h : table.Spreading seen (id :: rest)) :
    table.Spreading (id :: seen) ((table.row id).targets .empty ++ rest) := by
  intro other mem next target lt
  rcases List.mem_cons.1 mem with rfl | mem
  · exact Or.inr (List.mem_append_left _ target)
  · rcases h other mem next target lt with seen | todo
    · exact Or.inl (List.mem_cons_of_mem _ seen)
    · rcases List.mem_cons.1 todo with rfl | todo
      · exact Or.inl List.mem_cons_self
      · exact Or.inr (List.mem_append_right _ todo)

/-- A state that is outside the table or seen already need not be done. -/
theorem Spreading.skip {seen rest : List Nat} {id : Nat}
    (h : table.Spreading seen (id :: rest)) (old : id < table.size → id ∈ seen) :
    table.Spreading seen rest := by
  intro other mem next target lt
  rcases h other mem next target lt with seen | todo
  · exact Or.inl seen
  · rcases List.mem_cons.1 todo with rfl | todo
    · exact Or.inl (old lt)
    · exact Or.inr todo

theorem spreading_spread {seen todo : List Nat} (h : table.Spreading seen todo) :
    table.Spreading (table.spread seen todo) [] := by
  fun_induction spread table seen todo with
  | case1 => exact h
  | case2 _ _ _ _ ih => exact ih h.visit
  | case3 _ _ _ old ih => exact ih (h.skip (Decidable.not_and_not_right.1 old))

theorem mem_spread_of_seen {seen todo : List Nat} {id : Nat} (h : id ∈ seen) :
    id ∈ table.spread seen todo := by
  fun_induction spread table seen todo with
  | case1 => exact h
  | case2 _ _ _ _ ih => exact ih (List.mem_cons_of_mem _ h)
  | case3 _ _ _ _ ih => exact ih h

theorem mem_spread_of_todo {seen todo : List Nat} {id : Nat} (h : id ∈ todo)
    (lt : id < table.size) : id ∈ table.spread seen todo := by
  fun_induction spread table seen todo with
  | case1 => simp at h
  | case2 seen first rest _ ih =>
    rcases List.mem_cons.1 h with rfl | mem
    · exact mem_spread_of_seen List.mem_cons_self
    · exact ih (List.mem_append_right _ mem)
  | case3 seen first rest old ih =>
    rcases List.mem_cons.1 h with rfl | mem
    · exact mem_spread_of_seen (Decidable.not_and_not_right.1 old lt)
    · exact ih mem

theorem reaches_of_mem_spread {seen todo : List Nat} {id : Nat} (h : id ∈ table.spread seen todo) :
    id ∈ seen ∨ ∃ seed ∈ todo, table.Reaches seed id := by
  fun_induction spread table seen todo with
  | case1 => exact Or.inl h
  | case2 seen first rest fresh ih =>
    rcases ih h with mem | ⟨seed, mem, reach⟩
    · rcases List.mem_cons.1 mem with rfl | mem
      · exact Or.inr ⟨id, List.mem_cons_self, .refl fresh.1⟩
      · exact Or.inl mem
    · rcases List.mem_append.1 mem with target | mem
      · exact Or.inr ⟨first, List.mem_cons_self, .step fresh.1 target reach⟩
      · exact Or.inr ⟨seed, List.mem_cons_of_mem _ mem, reach⟩
  | case3 seen first rest _ ih =>
    rcases ih h with mem | ⟨seed, mem, reach⟩
    · exact Or.inl mem
    · exact Or.inr ⟨seed, List.mem_cons_of_mem _ mem, reach⟩

/-- What is reached from a state of a spread list is in the list. -/
theorem Spreading.mem_of_reaches {seen : List Nat} (h : table.Spreading seen []) {id last : Nat}
    (reach : table.Reaches id last) (mem : id ∈ seen) : last ∈ seen := by
  induction reach with
  | refl => exact mem
  | step _ target rest ih =>
    have next := h _ mem _ target rest.left_lt
    simp only [List.not_mem_nil, or_false] at next
    exact ih next

/-- The closure of a list of states holds exactly the states that are reached from it. -/
theorem mem_closure_iff {seeds : List Nat} {id : Nat} :
    id ∈ table.closure seeds ↔ ∃ seed ∈ seeds, table.Reaches seed id := by
  rw [closure, StateSet.mem_ofList]
  constructor
  · intro mem
    rcases reaches_of_mem_spread mem with old | found
    · simp at old
    · exact found
  · rintro ⟨seed, mem, reach⟩
    have closed : table.Spreading (table.spread [] seeds) [] :=
      spreading_spread (by simp [Spreading])
    exact closed.mem_of_reaches reach (mem_spread_of_todo mem reach.left_lt)

theorem mem_closure_of_reaches {seeds : List Nat} {id last : Nat} (mem : id ∈ table.closure seeds)
    (reach : table.Reaches id last) : last ∈ table.closure seeds := by
  obtain ⟨seed, hs, first⟩ := mem_closure_iff.1 mem
  exact mem_closure_iff.2 ⟨seed, hs, first.trans reach⟩

/-- The closure depends on the elements of the list alone. -/
theorem closure_congr {seeds others : List Nat} (same : ∀ id, id ∈ seeds ↔ id ∈ others) :
    table.closure seeds = table.closure others := by
  apply StateSet.ext_mem
  intro id
  simp only [mem_closure_iff, same]

theorem mem_closure_append_iff {seeds others : List Nat} {id : Nat} :
    id ∈ table.closure (seeds ++ others) ↔ id ∈ table.closure seeds ∨ id ∈ table.closure others := by
  simp only [mem_closure_iff, List.mem_append, or_and_right, exists_or]

theorem closure_ids_closure (seeds : List Nat) :
    table.closure (table.closure seeds).ids = table.closure seeds := by
  apply StateSet.ext_mem
  intro id
  rw [mem_closure_iff]
  constructor
  · rintro ⟨seed, mem, reach⟩
    exact mem_closure_of_reaches mem reach
  · intro mem
    exact ⟨id, mem, .refl (closure_bounded mem)⟩

end LineGrep.Table
