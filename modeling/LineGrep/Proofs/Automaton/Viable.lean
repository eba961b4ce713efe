import LineGrep.Automaton.Subset
import LineGrep.Proofs.Automaton.Thompson

/-!
Words that can be continued. Each state of a fragment leads to its continuation over some word, so
no state of an automaton is a dead end. Main statement: an automaton is left without states after a
word exactly when no word of the language starts with it.
-/

namespace LineGrep

namespace Regex

/-- Some word of the language starts with a given one. -/
def Viable (t : Regex) (u : List UInt8) : Prop :=
  ∃ v, t.Matches (u ++ v)

theorem exists_matches (t : Regex) : ∃ w, t.Matches w := by
  induction t with
  | literal b => exact ⟨[b], .literal b⟩
  | dot => exact ⟨[0], .dot 0⟩
  | cat _ _ ihl ihr =>
    obtain ⟨u, first⟩ := ihl
    obtain ⟨v, second⟩ := ihr
    exact ⟨u ++ v, .cat first second⟩
  | alt _ _ ihl _ =>
    obtain ⟨u, first⟩ := ihl
    exact ⟨u, .altLeft first⟩
  | star _ _ => exact ⟨[], .starNil⟩

theorem viable_nil (t : Regex) : t.Viable [] :=
  t.exists_matches

end Regex

namespace Fragment

variable {table : Table}

/-- A label is consumed by some word. -/
theorem exists_consumes (slot : Slot) : ∃ u, slot.Consumes u := by
  cases slot with
  | byte b => exact ⟨[b], rfl⟩
  | any => exact ⟨[0], 0, rfl⟩
  | empty => exact ⟨[], rfl⟩

theorem exists_walk_out_single {slot : Slot} {base continuation id : Nat}
    (holds : table.Holds base (single slot base continuation).rows)
    (inside : id = base ∨ id = base + 1) : ∃ n w, table.Walk n id w continuation := by
  rcases inside with rfl | rfl
  · obtain ⟨u, consumes⟩ := exists_consumes slot
    obtain ⟨n, walk⟩ := walk_single holds consumes
    exact ⟨n, u, walk⟩
  · exact ⟨1, [], .one holds.tail.head rfl⟩

/-- Each of the first three states of a repetition leads to its continuation. -/
theorem exists_walk_out_star {body : Regex} {base continuation id : Nat}
    (holds : table.Holds base (ofRegex (.star body) base continuation).rows)
    (inside : id = base ∨ id = base + 1 ∨ id = base + 2) :
    ∃ n w, table.Walk n id w continuation := by
  have out : table.Walk 1 (base + 2) [] continuation := .one holds.tail.tail.head rfl
  have leave {state : Nat} (choice : state = base ∨ state = base + 1) :
      table.Walk 2 state [] continuation :=
    out.fork (targets_choice holds choice) (Or.inr rfl)
  rcases inside with first | second | third
  · exact ⟨2, [], leave (Or.inl first)⟩
  · exact ⟨2, [], leave (Or.inr second)⟩
  · exact ⟨1, [], third ▸ out⟩

/-- A state of a concatenation is one of the right part or of the left part. -/
theorem inside_cat {left right : Regex} {base id : Nat} (continuation : Nat)
    (below : id < base + stateCount (.cat left right)) : id < base + stateCount right ∨
      base + (ofRegex right base continuation).rows.length ≤ id ∧
        id < base + (ofRegex right base continuation).rows.length + stateCount left := by
  rw [length_rows]
  simp only [stateCount] at below
  omega

/-- A state of an alternative is one of the left part, one of the right part or the fork. -/
theorem inside_alt {left right : Regex} {base id : Nat} (continuation : Nat)
    (below : id < base + stateCount (.alt left right)) : id < base + stateCount left ∨
      (base + (ofRegex left base continuation).rows.length ≤ id ∧
        id < base + (ofRegex left base continuation).rows.length + stateCount right) ∨
      id = (ofRegex (.alt left right) base continuation).entry := by
  simp only [ofRegex, length_rows]
  simp only [stateCount] at below
  omega

/-- Each state of a fragment leads to its continuation. -/
theorem exists_walk_out {t : Regex} {base continuation id : Nat}
    (holds : table.Holds base (ofRegex t base continuation).rows) (above : base ≤ id)
    (below : id < base + stateCount t) : ∃ n w, table.Walk n id w continuation := by
  induction t generalizing base continuation id with
  | literal | dot =>
    simp only [stateCount] at below
    exact exists_walk_out_single holds (by omega)
  | cat left right ihl ihr =>
    rcases inside_cat continuation below with second | ⟨past, first⟩
    · exact ihr holds.left above second
    · -- From the left part the walk goes on at the entry of the right one.
      obtain ⟨m, u, front⟩ := ihl holds.right past first
      have entry := entry_mem right base continuation
      obtain ⟨n, v, rest⟩ := ihr holds.left entry.1 entry.2
      exact ⟨m + n, u ++ v, front.trans rest⟩
  | alt left right ihl ihr =>
    rcases inside_alt continuation below with first | ⟨past, second⟩ | last
    · exact ihl holds.left.left above first
    · exact ihr holds.left.right past second
    · -- The fork goes on to the entry of the left part.
      have entry := entry_mem left base continuation
      obtain ⟨n, w, walk⟩ := ihl holds.left.left entry.1 entry.2
      exact ⟨n + 1, w, last ▸ walk.fork (targets_alternative holds) (Or.inl rfl)⟩
  | star body ih =>
    simp only [stateCount] at below
    by_cases outer : id < base + 3
    · exact exists_walk_out_star holds (by omega)
    · have past : base + 1 + 1 + 1 ≤ id := by omega
      obtain ⟨m, u, first⟩ := ih holds.tail.tail.tail past (by omega)
      obtain ⟨n, v, rest⟩ := exists_walk_out_star holds (Or.inr (Or.inl rfl))
      exact ⟨m + n, u ++ v, first.trans rest⟩

end Fragment

namespace Nfa

variable {nfa : Nfa}

theorem lt_size_of_mem_after {set : StateSet} (within : set.Within nfa.size) {w : List UInt8}
    {id : Nat} (h : id ∈ nfa.after set w) : id < nfa.size := by
  induction w generalizing set with
  | nil => exact within id h
  | cons b w ih => exact ih (fun _ => Table.closure_bounded) h

theorem exists_walk_to_accept (t : Regex) {id : Nat} (h : id < (ofRegex t).size) :
    ∃ n w, (ofRegex t).table.Walk n id w (ofRegex t).accept := by
  rw [size_ofRegex] at h
  by_cases accepting : id = 0
  · subst accepting
    exact ⟨0, [], .nil 0⟩
  · exact Fragment.exists_walk_out (holds_fragment t) (by omega) (by omega)

theorem after_append (nfa : Nfa) (set : StateSet) (u v : List UInt8) :
    nfa.after set (u ++ v) = nfa.after (nfa.after set u) v :=
  List.foldl_append

/-- The automaton of an expression is left without states after a word exactly when no word of the
language starts with it. -/
theorem isEmpty_after_iff (t : Regex) (u : List UInt8) :
    ((ofRegex t).after (ofRegex t).start u).isEmpty = true ↔ ¬t.Viable u := by
  constructor
  · rintro stopped ⟨v, word⟩
    have accepted := (contains_after_start_iff t (u ++ v)).2 word
    rw [after_append, StateSet.contains_iff] at accepted
    exact not_mem_after_of_isEmpty stopped v _ accepted
  · intro blocked
    refine StateSet.isEmpty_iff.2 fun id mem => ?_
    have rooted := rooted_ofRegex t
    obtain ⟨m, front⟩ := (mem_after_start_iff rooted.bounded rooted.initial_lt).1 mem
    obtain ⟨n, v, back⟩ :=
      exists_walk_to_accept t (lt_size_of_mem_after ((ofRegex t).within_closure _) mem)
    exact blocked ⟨v, (exists_walk_iff t (u ++ v)).1 ⟨m + n, front.trans back⟩⟩

theorem isEmpty_after_eq_false_iff (t : Regex) (u : List UInt8) :
    ((ofRegex t).after (ofRegex t).start u).isEmpty = false ↔ t.Viable u := by
  rw [← Bool.not_eq_true, isEmpty_after_iff]
  exact Classical.not_not

end Nfa

end LineGrep
