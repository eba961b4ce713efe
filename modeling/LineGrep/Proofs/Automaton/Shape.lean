import LineGrep.Proofs.Automaton.Thompson

/-!
The shape of the automaton of an expression. The rows of a fragment are of three kinds: one that
consumes a byte and goes on, one that goes on at once, and a fork. Main statement: the automaton has
two states for each leaf, one for each alternative, three for each repetition and the accepting one;
a state either consumes a byte in one way or goes on in two ways at most; and the markers are on the
initial state, to which nothing leads, and on the accepting one, which leads nowhere.
-/

namespace LineGrep

namespace Regex

/-- The number of alternatives in a tree. -/
def alternatives : Regex → Nat
  | literal _ | dot => 0
  | cat left right => left.alternatives + right.alternatives
  | alt left right => left.alternatives + right.alternatives + 1
  | star body => body.alternatives

/-- The number of repetitions in a tree. -/
def repetitions : Regex → Nat
  | literal _ | dot => 0
  | cat left right | alt left right => left.repetitions + right.repetitions
  | star body => body.repetitions + 1

end Regex

namespace Row

/-- The row has one transition at most, and this one consumes a byte. -/
structure Reads (row : Row) : Prop where
  noEmpty : row.targets .empty = []
  single : ∀ slot, (row.targets slot).length ≤ 1
  label : ∀ slot other, row.targets slot ≠ [] → row.targets other ≠ [] → slot = other

/-- The row has two transitions at most, and these are empty. -/
structure Branches (row : Row) : Prop where
  noConsuming : ∀ slot, slot ≠ .empty → row.targets slot = []
  few : (row.targets .empty).length ≤ 2

theorem reads_add {slot : Slot} {target : Nat} (consumes : slot ≠ .empty) :
    (empty.add slot target).Reads where
  noEmpty := by simp [targets_add, consumes.symm]
  single s := by rw [targets_add]; split <;> simp
  label s s' first second := by
    have own {s : Slot} (filled : (empty.add slot target).targets s ≠ []) : s = slot :=
      Decidable.byContradiction fun other => filled (by rw [targets_add, if_neg other, targets_empty])
    exact (own first).trans (own second).symm

theorem Reads.congr {row other : Row} (h : row.Reads) (same : other.targets = row.targets) :
    other.Reads :=
  ⟨same ▸ h.noEmpty, same ▸ h.single, same ▸ h.label⟩

theorem Branches.congr {row other : Row} (h : row.Branches) (same : other.targets = row.targets) :
    other.Branches :=
  ⟨same ▸ h.noConsuming, same ▸ h.few⟩

theorem branches_empty : empty.Branches :=
  ⟨fun slot _ => targets_empty slot, by simp⟩

theorem Branches.add {row : Row} {target : Nat} (h : row.Branches)
    (room : (row.targets .empty).length ≤ 1) : (row.add .empty target).Branches where
  noConsuming slot other := by rw [targets_add, if_neg other, h.noConsuming slot other]
  few := by rw [targets_add, if_pos rfl, List.length_append]; exact Nat.succ_le_succ room

end Row

namespace Fragment

/-- The rows of fragments. -/
inductive IsRow : Row → Prop where
  | read {slot target} : slot ≠ .empty → IsRow (Row.empty.add slot target)
  | pass {target} : IsRow (Row.empty.add .empty target)
  | fork {first second} : IsRow (fork first second)

theorem isRow_single {slot : Slot} {base continuation : Nat} (consumes : slot ≠ .empty) :
    ∀ row ∈ (single slot base continuation).rows, IsRow row := by
  intro row mem
  simp only [single, List.mem_cons, List.not_mem_nil, or_false] at mem
  rcases mem with rfl | rfl
  · exact .read consumes
  · exact .pass

theorem isRow_of_mem (t : Regex) (base continuation : Nat) :
    ∀ row ∈ (ofRegex t base continuation).rows, IsRow row := by
  induction t generalizing base continuation with
  | literal | dot => exact isRow_single (by simp)
  | cat left right ihl ihr =>
    intro row mem
    rcases List.mem_append.1 mem with second | first
    · exact ihr base continuation row second
    · exact ihl _ _ row first
  | alt left right ihl ihr =>
    intro row mem
    simp only [ofRegex, List.mem_append, List.mem_singleton] at mem
    rcases mem with (first | second) | rfl
    · exact ihl _ _ row first
    · exact ihr _ _ row second
    · exact .fork
  | star body ih =>
    intro row mem
    simp only [ofRegex, List.mem_cons] at mem
    rcases mem with rfl | rfl | rfl | inner
    · exact .fork
    · exact .fork
    · exact .pass
    · exact ih _ _ row inner

variable {row : Row}

theorem IsRow.reads_or_branches (h : IsRow row) : row.Reads ∨ row.Branches := by
  have pass {target : Nat} : (Row.empty.add .empty target).Branches :=
    Row.branches_empty.add (by simp)
  cases h with
  | read consumes => exact Or.inl (Row.reads_add consumes)
  | pass => exact Or.inr pass
  | fork => exact Or.inr (pass.add (by simp [Row.targets_add]))

theorem IsRow.unmarked (h : IsRow row) : row.initial = false ∧ row.accepting = false := by
  cases h <;> exact ⟨rfl, rfl⟩

theorem stateCount_eq (t : Regex) :
    stateCount t = 2 * t.leaves.length + t.alternatives + 3 * t.repetitions := by
  induction t with
  | literal | dot => rfl
  | cat left right ihl ihr | alt left right ihl ihr =>
    simp only [stateCount, Regex.leaves, Regex.alternatives, Regex.repetitions, List.length_append]
    omega
  | star body ih =>
    simp only [stateCount, Regex.leaves, Regex.alternatives, Regex.repetitions]
    omega

end Fragment

namespace Table

theorem accepting_row_update_markInitial (table : Table) (id other : Nat) :
    ((table.update id Row.markInitial).row other).accepting = (table.row other).accepting := by
  rw [row, row, row?_update]
  split
  · cases table.row? other <;> rfl
  · rfl

theorem initial_row_update_markInitial {table : Table} {id other : Nat} (h : id < table.size) :
    ((table.update id Row.markInitial).row other).initial = true ↔
      other = id ∨ (table.row other).initial = true := by
  rw [row, row, row?_update]
  by_cases same : id = other
  · subst same
    obtain ⟨old, has⟩ := Option.ne_none_iff_exists'.1 fun none =>
      Nat.not_le.2 h (row?_eq_none_iff.1 none)
    simp [has, Row.markInitial]
  · simp [same, Ne.symm same]

/-- Before the initial state is marked, the first row alone has a marker. -/
theorem markers_row_of_isRow {rows : List Row} (h : ∀ row ∈ rows, Fragment.IsRow row) (id : Nat) :
    let row := (Table.mk (Row.empty.markAccepting :: rows).toArray).row id
    row.initial = false ∧ (row.accepting = true ↔ id = 0) := by
  cases id with
  | zero => exact ⟨rfl, iff_of_true rfl rfl⟩
  | succ k =>
    simp only [row, row?, List.getElem?_toArray, List.getElem?_cons_succ]
    cases place : rows[k]? with
    | none => exact ⟨rfl, by simp [Row.empty]⟩
    | some row =>
      have unmarked := (h row (List.mem_of_getElem? place)).unmarked
      simpa using unmarked

end Table

namespace Nfa

theorem reads_or_branches (t : Regex) (id : Nat) :
    ((ofRegex t).table.row id).Reads ∨ ((ofRegex t).table.row id).Branches := by
  by_cases inside : id < (Row.empty.markAccepting :: (Fragment.ofRegex t 1 0).rows).length
  · obtain ⟨row, mem, same⟩ := (holds_ofRegex t).exists_row inside
    rcases List.mem_cons.1 mem with rfl | mem
    · exact Or.inr (Row.branches_empty.congr same)
    · have shape := (Fragment.isRow_of_mem t 1 0 row mem).reads_or_branches
      exact shape.imp (·.congr same) (·.congr same)
  · have outside : (ofRegex t).table.size ≤ id := by
      have size : (ofRegex t).table.size = Fragment.stateCount t + 1 := size_ofRegex t
      simp only [List.length_cons, Fragment.length_rows] at inside
      omega
    rw [Table.row_of_size_le outside]
    exact Or.inr Row.branches_empty

theorem accepting_row_iff (t : Regex) (id : Nat) :
    ((ofRegex t).table.row id).accepting = true ↔ id = (ofRegex t).accept := by
  rw [ofRegex, Table.accepting_row_update_markInitial]
  exact (Table.markers_row_of_isRow (Fragment.isRow_of_mem t 1 0) id).2

theorem initial_row_iff (t : Regex) (id : Nat) :
    ((ofRegex t).table.row id).initial = true ↔ id = (ofRegex t).initial := by
  have inside : (Fragment.ofRegex t 1 0).entry < (Table.mk
      (Row.empty.markAccepting :: (Fragment.ofRegex t 1 0).rows).toArray).size := by
    have entry := Fragment.entry_mem t 1 0
    simp only [Table.size, List.size_toArray, List.length_cons, Fragment.length_rows]
    omega
  have unmarked := (Table.markers_row_of_isRow (Fragment.isRow_of_mem t 1 0) id).1
  rw [ofRegex, Table.initial_row_update_markInitial inside, unmarked]
  simp

/-- The automaton that is built for an expression has one state, two more for each leaf, one for
each alternative and three for each repetition. A state reads in one way at most or branches in two
ways at most, to states of the automaton. The accepting state alone has that marker and leads
nowhere; the initial state, which is another one, alone has the marker of its own and nothing leads
to it. -/
theorem thompson_shape (t : Regex) :
    ∃ nfa, build? t = some nfa ∧
      nfa.size = 1 + 2 * t.leaves.length + t.alternatives + 3 * t.repetitions ∧
      (∀ id, (nfa.table.row id).Reads ∨ (nfa.table.row id).Branches) ∧
      (∀ id slot, ∀ next ∈ (nfa.table.row id).targets slot, next < nfa.size) ∧
      nfa.accept = 0 ∧ (∀ id, (nfa.table.row id).accepting = true ↔ id = nfa.accept) ∧
      (∀ slot, (nfa.table.row nfa.accept).targets slot = []) ∧
      nfa.initial < nfa.size ∧ (∀ id, (nfa.table.row id).initial = true ↔ id = nfa.initial) ∧
      nfa.initial ≠ nfa.accept ∧ ∀ id slot, nfa.initial ∉ (nfa.table.row id).targets slot := by
  have rooted := rooted_ofRegex t
  refine ⟨ofRegex t, build?_eq t, ?_, reads_or_branches t, rooted.bounded, rfl, accepting_row_iff t,
    fun slot => ?_, rooted.initial_lt, initial_row_iff t, ?_, rooted.fresh⟩
  · rw [size_ofRegex, Fragment.stateCount_eq]
    omega
  · exact (congrFun (holds_ofRegex t).head slot).trans (Row.targets_empty slot)
  · exact Nat.ne_of_gt (Fragment.entry_mem t 1 0).1

end Nfa

end LineGrep
