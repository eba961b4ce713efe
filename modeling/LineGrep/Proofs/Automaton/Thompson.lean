import LineGrep.Automaton.Builder
import LineGrep.Proofs.Alphabet
import LineGrep.Proofs.Automaton.Walk
import LineGrep.Regex.Language

/-!
The fragment of an expression within a table. A walk that enters a fragment and ends before its base
consumes a word of the language and then goes on from the continuation, and each word of the
language leads from the entry to the continuation. Main statement: the automaton of an expression
accepts exactly the words of its language.
-/

namespace LineGrep

namespace Row

theorem mem_targets_add_empty {slot s : Slot} {target next : Nat} :
    next ∈ (empty.add slot target).targets s ↔ s = slot ∧ next = target := by
  rw [targets_add]
  split <;> simp [*]

end Row

namespace Fragment

theorem mem_targets_fork {first second next : Nat} {s : Slot} :
    next ∈ (fork first second).targets s ↔ s = .empty ∧ (next = first ∨ next = second) := by
  rw [fork, Row.targets_add, Row.targets_add]
  split <;> simp [*]

end Fragment

namespace Table

variable {table : Table}

/-- The rows of a table from a base on have the targets of the given ones. -/
def Holds (table : Table) (base : Nat) (rows : List Row) : Prop :=
  ∀ i (h : i < rows.length), (table.row (base + i)).targets = rows[i].targets

theorem Holds.head {base : Nat} {row : Row} {rows : List Row} (h : table.Holds base (row :: rows)) :
    (table.row base).targets = row.targets :=
  h 0 (by simp)

theorem Holds.tail {base : Nat} {row : Row} {rows : List Row} (h : table.Holds base (row :: rows)) :
    table.Holds (base + 1) rows := by
  intro i hi
  rw [Nat.add_assoc, Nat.add_comm 1]
  exact h (i + 1) (by simpa using hi)

theorem Holds.left {base : Nat} {front back : List Row} (h : table.Holds base (front ++ back)) :
    table.Holds base front := by
  intro i hi
  rw [h i (by simp; omega), List.getElem_append_left hi]

theorem Holds.right {base : Nat} {front back : List Row} (h : table.Holds base (front ++ back)) :
    table.Holds (base + front.length) back := by
  intro i hi
  rw [Nat.add_assoc, h (front.length + i) (by simp; omega),
    List.getElem_append_right (Nat.le_add_right _ _)]
  simp

theorem Walk.uncons {n id last : Nat} {w : List UInt8} (h : table.Walk n id w last)
    (ne : id ≠ last) : ∃ m next slot u v, n = m + 1 ∧ w = u ++ v ∧
      next ∈ (table.row id).targets slot ∧ slot.Consumes u ∧ table.Walk m next v last := by
  cases h with
  | nil => exact absurd rfl ne
  | cons target consumes rest => exact ⟨_, _, _, _, _, rfl, rfl, target, consumes, rest⟩

/-- A walk leaves a state with one transition through it. -/
theorem Walk.leave_one {n id target last : Nat} {slot : Slot} {w : List UInt8}
    (row : (table.row id).targets = (Row.empty.add slot target).targets) (ne : id ≠ last)
    (h : table.Walk n id w last) : ∃ m u v, n = m + 1 ∧ w = u ++ v ∧ slot.Consumes u ∧
      table.Walk m target v last := by
  obtain ⟨m, next, s, u, v, rfl, rfl, mem, consumes, rest⟩ := h.uncons ne
  rw [row] at mem
  obtain ⟨rfl, rfl⟩ := Row.mem_targets_add_empty.1 mem
  exact ⟨m, u, v, rfl, rfl, consumes, rest⟩

theorem Walk.leave_fork {n id first second last : Nat} {w : List UInt8}
    (row : (table.row id).targets = (Fragment.fork first second).targets) (ne : id ≠ last)
    (h : table.Walk n id w last) :
    ∃ m, n = m + 1 ∧ (table.Walk m first w last ∨ table.Walk m second w last) := by
  obtain ⟨m, next, s, u, v, rfl, rfl, mem, consumes, rest⟩ := h.uncons ne
  rw [row] at mem
  obtain ⟨rfl, rfl | rfl⟩ := Fragment.mem_targets_fork.1 mem
  all_goals
    obtain rfl : u = [] := consumes
  · exact ⟨m, rfl, Or.inl rest⟩
  · exact ⟨m, rfl, Or.inr rest⟩

theorem Walk.one {id target : Nat} {slot : Slot} {u : List UInt8}
    (row : (table.row id).targets = (Row.empty.add slot target).targets)
    (consumes : slot.Consumes u) : table.Walk 1 id u target :=
  .single (s := slot) (row ▸ Row.mem_targets_add_empty.2 ⟨rfl, rfl⟩) consumes

theorem Walk.fork {n id first second next last : Nat} {w : List UInt8}
    (row : (table.row id).targets = (Fragment.fork first second).targets)
    (mem : next = first ∨ next = second) (h : table.Walk n next w last) :
    table.Walk (n + 1) id w last :=
  .cons (s := .empty) (u := []) (row ▸ Fragment.mem_targets_fork.2 ⟨rfl, mem⟩) rfl h

end Table

namespace Fragment

variable {table : Table}

/-- What a fragment of two states consumes before it goes on. -/
theorem split_walk_single {slot : Slot} {base continuation n last : Nat} {w : List UInt8}
    (holds : table.Holds base (single slot base continuation).rows) (before : last < base)
    (walk : table.Walk n base w last) : ∃ u v m, m < n ∧ w = u ++ v ∧ slot.Consumes u ∧
      table.Walk m continuation v last := by
  obtain ⟨k, u, v, rfl, rfl, consumes, rest⟩ := walk.leave_one holds.head (by omega)
  obtain ⟨m, e, v, rfl, rfl, rfl, out⟩ := rest.leave_one holds.tail.head (by omega)
  exact ⟨u, v, m, by omega, rfl, consumes, out⟩

theorem walk_single {slot : Slot} {base continuation : Nat} {u : List UInt8}
    (holds : table.Holds base (single slot base continuation).rows) (consumes : slot.Consumes u) :
    ∃ n, table.Walk n base u continuation := by
  have first := Table.Walk.one holds.head consumes
  have second := Table.Walk.one (u := []) holds.tail.head rfl
  exact ⟨2, by simpa using first.trans second⟩

/-- The first two states of a repetition leave the same choice: another round or the way out. -/
theorem targets_choice {body : Regex} {base continuation state : Nat}
    (holds : table.Holds base (ofRegex (.star body) base continuation).rows)
    (choice : state = base ∨ state = base + 1) : (table.row state).targets =
      (fork (ofRegex body (base + 3) (base + 1)).entry (base + 2)).targets := by
  rcases choice with rfl | rfl
  · exact holds.head
  · exact holds.tail.head

/-- The entry of an alternative goes on to the entries of its parts. -/
theorem targets_alternative {left right : Regex} {base continuation : Nat}
    (holds : table.Holds base (ofRegex (.alt left right) base continuation).rows) :
    (table.row (ofRegex (.alt left right) base continuation).entry).targets =
      (fork (ofRegex left base continuation).entry (ofRegex right
        (base + (ofRegex left base continuation).rows.length) continuation).entry).targets := by
  have row := holds.right.head
  simp only [List.length_append, ← Nat.add_assoc] at row
  exact row

/-- The pass through a repetition: each round consumes a word of the body and comes back to a state
with the choice between another round and the way out. -/
theorem split_walk_star {body : Regex} {base continuation last : Nat}
    (holds : table.Holds base (ofRegex (.star body) base continuation).rows) (before : last < base)
    (inner : ∀ {n w}, table.Walk n (ofRegex body (base + 3) (base + 1)).entry w last →
      ∃ u v m, m < n ∧ w = u ++ v ∧ body.Matches u ∧ table.Walk m (base + 1) v last)
    (n : Nat) {state : Nat} {w : List UInt8} (choice : state = base ∨ state = base + 1)
    (walk : table.Walk n state w last) :
    ∃ u v m, m < n ∧ w = u ++ v ∧ (Regex.star body).Matches u ∧
      table.Walk m continuation v last := by
  -- A round may consume nothing, so it is the walk that gets shorter and not the word.
  induction n using Nat.strongRecOn generalizing state w with
  | _ n ih =>
    obtain ⟨k, rfl, again | out⟩ := walk.leave_fork (targets_choice holds choice) (by omega)
    · obtain ⟨u, v, m, lt, rfl, round, rest⟩ := inner again
      obtain ⟨u', v', m', lt', rfl, rounds, rest⟩ := ih m (by omega) (Or.inr rfl) rest
      exact ⟨u ++ u', v', m', by omega, by simp, .starAppend round rounds, rest⟩
    · obtain ⟨m, u, v, rfl, rfl, rfl, rest⟩ := out.leave_one holds.tail.tail.head (by omega)
      exact ⟨[], v, m, by omega, rfl, .starNil, rest⟩

/-- A walk from the entry of a fragment to a state before it consumes a word of the language and
then goes on from the continuation. -/
theorem split_walk {t : Regex} {base continuation n last : Nat} {w : List UInt8}
    (holds : table.Holds base (ofRegex t base continuation).rows) (before : last < base)
    (walk : table.Walk n (ofRegex t base continuation).entry w last) :
    ∃ u v m, m < n ∧ w = u ++ v ∧ t.Matches u ∧ table.Walk m continuation v last := by
  induction t generalizing base continuation n w with
  | literal b =>
    obtain ⟨u, v, m, lt, rfl, consumes, rest⟩ := split_walk_single holds before walk
    exact ⟨u, v, m, lt, rfl, Regex.matches_literal_iff.2 consumes, rest⟩
  | dot =>
    obtain ⟨u, v, m, lt, rfl, consumes, rest⟩ := split_walk_single holds before walk
    exact ⟨u, v, m, lt, rfl, Regex.matches_dot_iff.2 consumes, rest⟩
  | cat left right ihl ihr =>
    obtain ⟨u, v, m, lt, rfl, first, rest⟩ := ihl holds.right (by omega) walk
    obtain ⟨u', v', m', lt', rfl, second, rest⟩ := ihr holds.left before rest
    exact ⟨u ++ u', v', m', by omega, by simp, .cat first second, rest⟩
  | alt left right ihl ihr =>
    have entry := (entry_mem (.alt left right) base continuation).1
    have leave := walk.leave_fork (targets_alternative holds) (by omega)
    obtain ⟨k, rfl, first | second⟩ := leave
    · obtain ⟨u, v, m, lt, rfl, word, rest⟩ := ihl holds.left.left before first
      exact ⟨u, v, m, by omega, rfl, .altLeft word, rest⟩
    · obtain ⟨u, v, m, lt, rfl, word, rest⟩ := ihr holds.left.right (by omega) second
      exact ⟨u, v, m, by omega, rfl, .altRight word, rest⟩
  | star body ih =>
    refine split_walk_star holds before (fun {n w} again => ?_) n (Or.inl rfl) walk
    exact ih holds.tail.tail.tail (by omega) again

theorem walk_star {body : Regex} {base continuation : Nat}
    (holds : table.Holds base (ofRegex (.star body) base continuation).rows)
    {words : List (List UInt8)}
    (inner : ∀ u ∈ words, ∃ n, table.Walk n (ofRegex body (base + 3) (base + 1)).entry u (base + 1))
    {state : Nat} (choice : state = base ∨ state = base + 1) :
    ∃ n, table.Walk n state words.flatten continuation := by
  induction words generalizing state with
  | nil =>
    have out := Table.Walk.one (u := []) holds.tail.tail.head rfl
    exact ⟨2, out.fork (targets_choice holds choice) (Or.inr rfl)⟩
  | cons u words ih =>
    obtain ⟨n, round⟩ := inner u List.mem_cons_self
    obtain ⟨m, rounds⟩ := ih (fun v mem => inner v (List.mem_cons_of_mem _ mem)) (Or.inr rfl)
    exact ⟨n + m + 1, (round.trans rounds).fork (targets_choice holds choice) (Or.inl rfl)⟩

/-- A word of the language leads from the entry of a fragment to its continuation. -/
theorem exists_walk_of_matches {t : Regex} {base continuation : Nat} {w : List UInt8}
    (holds : table.Holds base (ofRegex t base continuation).rows) (h : t.Matches w) :
    ∃ n, table.Walk n (ofRegex t base continuation).entry w continuation := by
  induction t generalizing base continuation w with
  | literal b => exact walk_single holds (Regex.matches_literal_iff.1 h)
  | dot => exact walk_single holds (Regex.matches_dot_iff.1 h)
  | cat left right ihl ihr =>
    obtain ⟨u, v, rfl, first, second⟩ := Regex.matches_cat_iff.1 h
    obtain ⟨m, front⟩ := ihl holds.right first
    obtain ⟨n, back⟩ := ihr holds.left second
    exact ⟨m + n, front.trans back⟩
  | alt left right ihl ihr =>
    rcases Regex.matches_alt_iff.1 h with first | second
    · obtain ⟨n, walk⟩ := ihl holds.left.left first
      exact ⟨n + 1, walk.fork (targets_alternative holds) (Or.inl rfl)⟩
    · obtain ⟨n, walk⟩ := ihr holds.left.right second
      exact ⟨n + 1, walk.fork (targets_alternative holds) (Or.inr rfl)⟩
  | star body ih =>
    obtain ⟨words, rfl, all⟩ := Regex.matches_star_iff.1 h
    exact walk_star holds (fun u mem => ih holds.tail.tail.tail (all u mem)) (Or.inl rfl)

/-- The transitions of a fragment lead to its own states, but never to its entry, or they are empty
and lead to its continuation. -/
theorem mem_targets_ofRegex {t : Regex} {base continuation next : Nat} {row : Row} {slot : Slot}
    (mem : row ∈ (ofRegex t base continuation).rows) (target : next ∈ row.targets slot) :
    slot = .empty ∧ next = continuation ∨ base ≤ next ∧ next < base + stateCount t ∧
      next ≠ (ofRegex t base continuation).entry := by
  induction t generalizing base continuation with
  | literal | dot =>
    simp only [ofRegex, single, List.mem_cons, List.not_mem_nil, or_false] at mem
    simp only [ofRegex, single, stateCount]
    rcases mem with rfl | rfl
    · obtain ⟨-, rfl⟩ := Row.mem_targets_add_empty.1 target
      omega
    · exact Or.inl (Row.mem_targets_add_empty.1 target)
  | cat left right ihl ihr =>
    have hr := entry_mem right base continuation
    have hl := entry_mem left (base + stateCount right) (ofRegex right base continuation).entry
    simp only [ofRegex, stateCount, length_rows] at mem hl ⊢
    rcases List.mem_append.1 mem with mem | mem
    · exact (ihr mem).imp_right fun inside => by omega
    · -- The continuation of the left part is the entry of the right one.
      have inside := ihl mem
      exact Or.inr (by omega)
  | alt left right ihl ihr =>
    have hl := entry_mem left base continuation
    have hr := entry_mem right (base + stateCount left) continuation
    simp only [ofRegex, stateCount, length_rows, List.mem_append, List.mem_singleton] at mem hr ⊢
    rcases mem with (mem | mem) | rfl
    · exact (ihl mem).imp_right fun inside => by omega
    · exact (ihr mem).imp_right fun inside => by omega
    · obtain ⟨-, rfl | rfl⟩ := mem_targets_fork.1 target <;> omega
  | star body ih =>
    have hb := entry_mem body (base + 3) (base + 1)
    simp only [ofRegex, stateCount, List.mem_cons] at mem ⊢
    rcases mem with rfl | rfl | rfl | mem
    · obtain ⟨-, rfl | rfl⟩ := mem_targets_fork.1 target <;> omega
    · obtain ⟨-, rfl | rfl⟩ := mem_targets_fork.1 target <;> omega
    · exact Or.inl (Row.mem_targets_add_empty.1 target)
    · have := ih mem
      omega

end Fragment

namespace Table

theorem targets_row_update_markInitial (table : Table) (id other : Nat) :
    ((table.update id Row.markInitial).row other).targets = (table.row other).targets := by
  rw [row, row, row?_update]
  split
  · cases table.row? other <;> rfl
  · rfl

theorem holds_toArray (rows : List Row) : (Table.mk rows.toArray).Holds 0 rows := by
  intro i hi
  simp [row, row?, hi]

theorem Holds.exists_row {table : Table} {rows : List Row} (h : table.Holds 0 rows) {id : Nat}
    (lt : id < rows.length) : ∃ row ∈ rows, (table.row id).targets = row.targets :=
  ⟨rows[id], List.getElem_mem lt, by rw [← h id lt, Nat.zero_add]⟩

end Table

namespace Nfa

/-- Transitions lead to the states of the automaton, but never back to the initial one. -/
structure Rooted (nfa : Nfa) : Prop where
  initial_lt : nfa.initial < nfa.size
  bounded : nfa.table.Bounded
  fresh : ∀ id slot, nfa.initial ∉ (nfa.table.row id).targets slot

theorem holds_ofRegex (t : Regex) : (ofRegex t).table.Holds 0
    (Row.empty.markAccepting :: (Fragment.ofRegex t 1 0).rows) := by
  intro i hi
  rw [ofRegex, Table.targets_row_update_markInitial]
  exact Table.holds_toArray _ i hi

theorem holds_fragment (t : Regex) : (ofRegex t).table.Holds 1 (Fragment.ofRegex t 1 0).rows :=
  (holds_ofRegex t).tail

theorem exists_row_of_mem_targets {t : Regex} {id next : Nat} {slot : Slot}
    (h : next ∈ ((ofRegex t).table.row id).targets slot) :
    ∃ row ∈ (Fragment.ofRegex t 1 0).rows, next ∈ row.targets slot := by
  have lt : id < Fragment.stateCount t + 1 := size_ofRegex t ▸ Table.lt_size_of_mem_targets h
  have inside : id < (Row.empty.markAccepting :: (Fragment.ofRegex t 1 0).rows).length := by
    simpa [Fragment.length_rows] using lt
  obtain ⟨row, mem, same⟩ := (holds_ofRegex t).exists_row inside
  rw [same] at h
  rcases List.mem_cons.1 mem with rfl | mem
  · simp [Row.targets_markAccepting] at h
  · exact ⟨row, mem, h⟩

theorem rooted_ofRegex (t : Regex) : (ofRegex t).Rooted := by
  have entry := Fragment.entry_mem t 1 0
  have initial : (ofRegex t).initial = (Fragment.ofRegex t 1 0).entry := rfl
  have size := size_ofRegex t
  refine ⟨by omega, fun id slot next target => ?_, fun id slot target => ?_⟩
  · obtain ⟨row, mem, target⟩ := exists_row_of_mem_targets target
    have := Fragment.mem_targets_ofRegex mem target
    show next < (ofRegex t).size
    omega
  · obtain ⟨row, mem, target⟩ := exists_row_of_mem_targets target
    have := Fragment.mem_targets_ofRegex mem target
    omega

/-- The walks from the initial state to the accepting one consume the words of the language. -/
theorem exists_walk_iff (t : Regex) (w : List UInt8) :
    (∃ n, (ofRegex t).table.Walk n (ofRegex t).initial w (ofRegex t).accept) ↔ t.Matches w := by
  constructor
  · rintro ⟨n, walk⟩
    obtain ⟨u, v, m, -, rfl, word, rest⟩ := Fragment.split_walk (holds_fragment t) Nat.zero_lt_one walk
    cases rest with
    | nil => simpa using word
    | cons target =>
      rw [(holds_ofRegex t).head] at target
      simp [Row.targets_markAccepting] at target
  · exact Fragment.exists_walk_of_matches (holds_fragment t)

theorem contains_after_start_iff (t : Regex) (w : List UInt8) :
    ((ofRegex t).after (ofRegex t).start w).contains (ofRegex t).accept = true ↔ t.Matches w := by
  have rooted := rooted_ofRegex t
  rw [StateSet.contains_iff, mem_after_start_iff rooted.bounded rooted.initial_lt, exists_walk_iff]

/-- The automaton that is built for an expression accepts exactly the words of its language. -/
theorem accepts_iff_matches (t : Regex) (word : List Char)
    (alphabet : ∀ c ∈ word, c.toNat < alphabetSize) :
    ∃ nfa, build? t = some nfa ∧
      (nfa.accepts word = .ok true ↔ t.Matches (bytesOf word)) ∧
      (nfa.accepts word = .ok false ↔ ¬t.Matches (bytesOf word)) := by
  refine ⟨ofRegex t, build?_eq t, ?_⟩
  rw [← contains_after_start_iff, accepts, ← map_charOf_bytesOf alphabet, acceptsFrom_map_charOf,
    bytesOf_map_charOf]
  simp

theorem accepts_nested_stars :
    let t : Regex := .star (.cat (.star (.literal 97)) (.star (.literal 98)))
    (∀ c ∈ ['a', 'b', 'a'], c.toNat < alphabetSize) ∧
      ∃ nfa, build? t = some nfa ∧ nfa.accepts ['a', 'b', 'a'] = .ok true := by
  intro t
  have alphabet : ∀ c ∈ ['a', 'b', 'a'], c.toNat < alphabetSize := by simp [alphabetSize]
  obtain ⟨nfa, built, accepted, -⟩ := accepts_iff_matches t ['a', 'b', 'a'] alphabet
  refine ⟨alphabet, nfa, built, accepted.2 ?_⟩
  have a : Regex.Matches (.star (.literal 97)) [97] := .starAppend (.literal 97) .starNil
  have b : Regex.Matches (.star (.literal 98)) [98] := .starAppend (.literal 98) .starNil
  exact .starAppend (.cat a b) (.starAppend (.cat a .starNil) .starNil)

end Nfa

end LineGrep
