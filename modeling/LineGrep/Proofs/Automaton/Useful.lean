import LineGrep.Proofs.Automaton.Viable
import LineGrep.Proofs.Search.Range

/-!
The use of each state. The entry of a fragment leads to each of its states, since it leads to the
entry of each part, and from each state the fragment is left. Main statement: each state of the
automaton of an expression lies between the initial state and the accepting one, so that the
automaton reads on to a character outside the alphabet exactly if what comes before can be continued
to a word of the language.
-/

namespace LineGrep

namespace Fragment

variable {table : Table}

theorem exists_walk_in_single {slot : Slot} {base continuation id : Nat}
    (holds : table.Holds base (single slot base continuation).rows)
    (inside : id = base ∨ id = base + 1) : ∃ n w, table.Walk n base w id := by
  rcases inside with rfl | rfl
  · exact ⟨0, [], .nil id⟩
  · obtain ⟨u, consumes⟩ := exists_consumes slot
    exact ⟨1, u, .one holds.head consumes⟩

/-- The first state of a repetition leads to the other two of its own. -/
theorem exists_walk_in_star {body : Regex} {base continuation id : Nat}
    (holds : table.Holds base (ofRegex (.star body) base continuation).rows)
    (inside : id = base ∨ id = base + 1 ∨ id = base + 2) : ∃ n w, table.Walk n base w id := by
  have choice := targets_choice holds (Or.inl rfl)
  rcases inside with rfl | rfl | rfl
  · exact ⟨0, [], .nil id⟩
  · -- One pass through the body comes to the state after each pass.
    have entry := entry_mem body (base + 3) (base + 1)
    obtain ⟨n, w, pass⟩ := exists_walk_out holds.tail.tail.tail entry.1 entry.2
    exact ⟨n + 1, w, pass.fork choice (Or.inl rfl)⟩
  · exact ⟨1, [], (Table.Walk.nil (base + 2)).fork choice (Or.inr rfl)⟩

/-- The entry of a fragment leads to each of its states. -/
theorem exists_walk_in {t : Regex} {base continuation id : Nat}
    (holds : table.Holds base (ofRegex t base continuation).rows) (above : base ≤ id)
    (below : id < base + stateCount t) :
    ∃ n w, table.Walk n (ofRegex t base continuation).entry w id := by
  induction t generalizing base continuation id with
  | literal | dot =>
    simp only [stateCount] at below
    have inside : id = base ∨ id = base + 1 := by omega
    exact exists_walk_in_single holds inside
  | cat left right ihl ihr =>
    rcases inside_cat continuation below with second | ⟨past, first⟩
    · -- The left part is left at the entry of the right one.
      have entry := entry_mem left (base + (ofRegex right base continuation).rows.length)
        (ofRegex right base continuation).entry
      obtain ⟨m, u, front⟩ := exists_walk_out holds.right entry.1 entry.2
      obtain ⟨n, v, rest⟩ := ihr holds.left above second
      exact ⟨m + n, u ++ v, front.trans rest⟩
    · exact ihl holds.right past first
  | alt left right ihl ihr =>
    rcases inside_alt continuation below with first | ⟨past, second⟩ | last
    · obtain ⟨n, w, walk⟩ := ihl holds.left.left above first
      exact ⟨n + 1, w, walk.fork (targets_alternative holds) (Or.inl rfl)⟩
    · obtain ⟨n, w, walk⟩ := ihr holds.left.right past second
      exact ⟨n + 1, w, walk.fork (targets_alternative holds) (Or.inr rfl)⟩
    · exact ⟨0, [], last ▸ .nil id⟩
  | star body ih =>
    simp only [stateCount] at below
    by_cases outer : id < base + 3
    · have inside : id = base ∨ id = base + 1 ∨ id = base + 2 := by omega
      exact exists_walk_in_star holds inside
    · have past : base + 1 + 1 + 1 ≤ id := by omega
      obtain ⟨n, w, walk⟩ := ih holds.tail.tail.tail past (by omega)
      exact ⟨n + 1, w, walk.fork (targets_choice holds (Or.inl rfl)) (Or.inl rfl)⟩

end Fragment

namespace Nfa

theorem exists_walk_from_initial (t : Regex) {id : Nat} (h : id < (ofRegex t).size) :
    ∃ n w, (ofRegex t).table.Walk n (ofRegex t).initial w id := by
  by_cases accepting : id = (ofRegex t).accept
  · rw [accepting]
    exact exists_walk_to_accept t (rooted_ofRegex t).initial_lt
  · have other : id ≠ 0 := accepting
    rw [size_ofRegex] at h
    exact Fragment.exists_walk_in (holds_fragment t) (by omega) (by omega)

/-- From some states on, a character outside the alphabet is an error if there are states left when
it is read. -/
theorem acceptsFrom_outside (nfa : Nfa) {set : StateSet} {c : Char} (outside : byteOf? c = none)
    (rest : List Char) (alive : set.isEmpty = false) (w : List UInt8) :
    nfa.acceptsFrom set (w.map charOf ++ c :: rest) =
      if (nfa.after set w).isEmpty then .ok false else .error (.characterOutOfRange c) := by
  induction w generalizing set with
  | nil => simp [acceptsFrom, outside, alive]
  | cons b w ih =>
    rw [List.map_cons, List.cons_append, acceptsFrom, byteOf?_charOf, after_cons]
    simp only
    cases stopped : (nfa.step set b).isEmpty with
    | true => rw [if_pos rfl, if_pos (isEmpty_after_of_isEmpty stopped w)]
    | false => rw [if_neg Bool.false_ne_true, ih stopped]

/-- The answer to a text that leaves the alphabet. -/
theorem accepts_outside (t : Regex) {text : List Char} (leaves : alphabetEnd text < text.length) :
    (ofRegex t).accepts text =
      if ((ofRegex t).after (ofRegex t).start (bytesOf (text.take (alphabetEnd text)))).isEmpty
        then .ok false else .error (.characterOutOfRange text[alphabetEnd text]) := by
  have outside : byteOf? text[alphabetEnd text] = none :=
    byteOf?_eq_none_iff.2 (le_toNat_of_getElem?_alphabetEnd (List.getElem?_eq_getElem leaves))
  have alive := (isEmpty_after_eq_false_iff t []).2 t.viable_nil
  have parts := take_succ_append leaves (text.drop (alphabetEnd text + 1))
  rw [List.take_append_drop] at parts
  have answer := (ofRegex t).acceptsFrom_outside outside (text.drop (alphabetEnd text + 1)) alive
    (bytesOf (text.take (alphabetEnd text)))
  rw [← parts] at answer
  exact answer

/-- Each state of the automaton of an expression is reached from the initial state and leads to the
accepting one. So a text that leaves the alphabet is answered by the error for the character there
if some word of the language starts with what comes before, and by a refusal if none does. -/
theorem every_state_useful (t : Regex) :
    (∀ id < (ofRegex t).size,
      (∃ n u, (ofRegex t).table.Walk n (ofRegex t).initial u id) ∧
        ∃ n v, (ofRegex t).table.Walk n id v (ofRegex t).accept) ∧
      ∀ (text : List Char) (leaves : alphabetEnd text < text.length),
        ((ofRegex t).accepts text = .error (.characterOutOfRange text[alphabetEnd text]) ↔
          t.Viable (bytesOf (text.take (alphabetEnd text)))) ∧
        (¬t.Viable (bytesOf (text.take (alphabetEnd text))) →
          (ofRegex t).accepts text = .ok false) := by
  refine ⟨fun id inside => ⟨exists_walk_from_initial t inside, exists_walk_to_accept t inside⟩,
    fun text leaves => ?_⟩
  rw [accepts_outside t leaves, ← isEmpty_after_eq_false_iff]
  split
  · next stopped => simp [stopped]
  · next alive => simp [alive]

theorem accepts_error_and_refusal :
    let t : Regex := .cat (.literal 97) (.literal 98)
    3 < (ofRegex t).size ∧
      (∃ n u, (ofRegex t).table.Walk n (ofRegex t).initial u 3) ∧
      alphabetEnd ['a', '€'] < ['a', '€'].length ∧
      (ofRegex t).accepts ['a', '€'] = .error (.characterOutOfRange '€') ∧
      alphabetEnd ['b', '€'] < ['b', '€'].length ∧ (ofRegex t).accepts ['b', '€'] = .ok false := by
  intro t
  have inside : 3 < (ofRegex t).size := by decide
  have first : alphabetEnd ['a', '€'] < ['a', '€'].length := by decide
  have second : alphabetEnd ['b', '€'] < ['b', '€'].length := by decide
  have viable : t.Viable (bytesOf (['a', '€'].take (alphabetEnd ['a', '€']))) :=
    ⟨[98], .cat (.literal 97) (.literal 98)⟩
  have blocked : ¬t.Viable (bytesOf (['b', '€'].take (alphabetEnd ['b', '€']))) := by
    rintro ⟨v, word⟩
    obtain ⟨u, w, parts, start, -⟩ := Regex.matches_cat_iff.1 word
    obtain rfl := Regex.matches_literal_iff.1 start
    -- The text starts with a `b`, and each word of the language with an `a`.
    exact absurd (List.cons.inj parts).1 (by decide)
  exact ⟨inside, ((every_state_useful t).1 3 inside).1, first,
    ((every_state_useful t).2 _ first).1.2 viable, second,
    ((every_state_useful t).2 _ second).2 blocked⟩

end Nfa

end LineGrep
