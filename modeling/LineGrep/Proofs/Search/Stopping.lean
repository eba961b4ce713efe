import LineGrep.Proofs.Search.Outside

/-!
Where the search of a line leaves the cursor. Main statement: the answer and the place of the cursor
follow from the language and the line; where the cursor was before has no influence. After a match
the cursor has read the shortest match at the leftmost place of one.
-/

namespace LineGrep

namespace Regex

variable {t : Regex} {w : List UInt8} {tail : List Char} {i j : Nat}

/-- The part of a line from one place to another is the text of a word of the language. -/
def WordAt (t : Regex) (line : List Char) (i j : Nat) : Prop :=
  i ≤ j ∧ j ≤ line.length ∧ ∃ u, (line.take j).drop i = u.map charOf ∧ t.Matches u

/-- A word that starts before the character outside the alphabet ends before it, too. -/
theorem le_length_of_part (outside : ∀ ch ∈ tail.head?, byteOf? ch = none) (inside : i ≤ w.length)
    (last : j ≤ (w.map charOf ++ tail).length) {u : List UInt8}
    (part : ((w.map charOf ++ tail).take j).drop i = u.map charOf) : j ≤ w.length := by
  by_contra past
  rw [List.length_append, List.length_map] at last
  cases tail with
  | nil => exact past (by simpa using last)
  | cons ch rest =>
    have here : (u.map charOf)[w.length - i]? = some ch := by
      rw [← part, List.getElem?_drop, List.getElem?_take_of_lt (by omega),
        Nat.add_sub_cancel' inside, List.getElem?_append_right (by simp)]
      simp
    obtain ⟨b, -, rfl⟩ := List.mem_map.1 (List.mem_of_getElem? here)
    have none := outside (charOf b) rfl
    rw [byteOf?_charOf] at none
    cases none

/-- The part of a line that a word of it takes up. -/
theorem part_append {u : List UInt8} (front : u <+: w.drop i) (inside : i ≤ w.length) :
    ((w.map charOf ++ tail).take (i + u.length)).drop i = u.map charOf := by
  have short := front.length_le
  rw [List.length_drop] at short
  rw [List.take_append_of_le_length (by simp; omega), List.drop_take, Nat.add_sub_cancel_left,
    ← List.map_drop, ← List.map_take, ← List.prefix_iff_eq_take.1 front]

theorem wordAt_append_iff (outside : ∀ ch ∈ tail.head?, byteOf? ch = none) (inside : i ≤ w.length) :
    t.WordAt (w.map charOf ++ tail) i j ↔ ∃ u, u <+: w.drop i ∧ j = i + u.length ∧ t.Matches u := by
  constructor
  · rintro ⟨order, last, u, part, word⟩
    have before := le_length_of_part outside inside last part
    rw [List.take_append_of_le_length (by simpa using before), ← List.map_take, ← List.map_drop]
      at part
    have same := congrArg bytesOf part
    rw [bytesOf_map_charOf, bytesOf_map_charOf, List.drop_take] at same
    refine ⟨u, same ▸ List.take_prefix _ _, ?_, word⟩
    rw [← same, List.length_take, List.length_drop]
    omega
  · rintro ⟨u, front, rfl, word⟩
    have short := front.length_le
    rw [List.length_drop] at short
    exact ⟨Nat.le_add_right _ _, by simp; omega, u, part_append front inside, word⟩

/-- Up to its first character outside the alphabet, a line is the text of a word. -/
theorem parts_of_line (line : List Char) :
    (bytesOf (line.take (alphabetEnd line))).map charOf ++ line.drop (alphabetEnd line) = line ∧
      ∀ ch ∈ (line.drop (alphabetEnd line)).head?, byteOf? ch = none := by
  constructor
  · rw [map_charOf_bytesOf_take, List.take_append_drop]
  · intro ch first
    rw [List.head?_drop] at first
    exact byteOf?_eq_none_iff.2 (le_toNat_of_getElem?_alphabetEnd first)

end Regex

namespace Cursor

variable {t : Regex} {line : List Char} {w : List UInt8} {tail : List Char}
  {outcome : Except AutomatonError Bool × Cursor}

/-- After a match, the cursor has read the shortest match at the leftmost place of one. -/
theorem StopsAt.of_found (h : StopsAt t w tail outcome) (answer : outcome.1 = .ok true)
    (outside : ∀ ch ∈ tail.head?, byteOf? ch = none) :
    ∃ i j, IsLeast {i | ∃ j, t.WordAt (w.map charOf ++ tail) i j} i ∧
      IsLeast {j | t.WordAt (w.map charOf ++ tail) i j} j ∧
      (start (Dfa.ofNfa (.ofRegex t))).read (((w.map charOf ++ tail).take j).drop i) =
        .ok outcome.2 ∧
      outcome.2.isAccepting = true := by
  cases h with
  | unfound | outside => cases answer
  | @found i u next inside passed completes read hasRead =>
    have here (j : Nat) := Regex.wordAt_append_iff (t := t) (j := j) outside inside
    have word : t.WordAt (w.map charOf ++ tail) i (i + u.length) :=
      (here _).2 ⟨u, completes.front, rfl, completes.word⟩
    refine ⟨i, i + u.length, ⟨⟨_, word⟩, ?_⟩, ⟨word, ?_⟩, ?_, ?_⟩
    · rintro k ⟨j, other⟩
      by_contra before
      obtain ⟨v, front, -, word'⟩ := (Regex.wordAt_append_iff outside (by omega)).1 other
      exact (passed k (by omega)).unmatched v front word'
    · intro j other
      obtain ⟨v, front, rfl, word'⟩ := (here j).1 other
      exact Nat.add_le_add_left (completes.shortest v front word') i
    · rw [Regex.part_append completes.front inside]
      exact read
    · exact hasRead.isAccepting_iff.2 completes.word

/-- After an error, the cursor has read the line from the first place from which it could go on. -/
theorem StopsAt.of_failed {e : AutomatonError}
    (h : StopsAt t (bytesOf (line.take (alphabetEnd line))) (line.drop (alphabetEnd line)) outcome)
    (answer : outcome.1 = .error e) :
    ∃ s c, IsLeast {s | t.ViableFrom line s} s ∧ (line.drop (alphabetEnd line)).head? = some c ∧
      e = .characterOutOfRange c ∧
      (start (Dfa.ofNfa (.ofRegex t))).read ((line.take (alphabetEnd line)).drop s) =
        .ok outcome.2 ∧
      outcome.2.isAccepting = false := by
  cases h with
  | found | unfound => cases answer
  | @outside s ch rest stop same inside passed viable unmatched read hasRead =>
    cases answer
    have leaves : line.drop (alphabetEnd line) ≠ [] := same ▸ List.cons_ne_nil ch rest
    rw [length_bytesOf_take] at inside
    refine ⟨s, ch, ⟨Regex.viableFrom_iff.2 ⟨inside, viable⟩, ?_⟩, ?_, rfl, ?_, ?_⟩
    · intro k viable'
      by_contra before
      exact (passed k (by omega)).stuck leaves (Regex.viableFrom_iff.1 viable').2
    · rw [same]
      rfl
    · rwa [List.map_drop, map_charOf_bytesOf_take] at read
    · rw [← Bool.not_eq_true, hasRead.isAccepting_iff]
      exact unmatched _ List.prefix_rfl

end Cursor

/-- The search of a line, wherever the cursor was before: the answer and the place of the cursor
afterwards depend on the line alone. If something is found, the cursor has read the part of the line
from the first place at which a word of the language starts to the first place at which such a word
ends, and accepts. If nothing is found, it is on the initial state. After an error, which is for the
first character outside the alphabet, it has read what comes before this character, from the first
place from which that could be continued to a word of the language, and does not accept. -/
theorem Automaton.search_leaves_cursor (t : Regex) (line : List Char) :
    let dfa := Dfa.ofNfa (.ofRegex t)
    ∃ answer stop,
      (∀ current, (Automaton.deterministic ⟨dfa, current⟩).search line =
        (answer, .deterministic stop)) ∧
      (answer = .ok true → ∃ i j, IsLeast {i | ∃ j, t.WordAt line i j} i ∧
        IsLeast {j | t.WordAt line i j} j ∧
        (Cursor.start dfa).read ((line.take j).drop i) = .ok stop ∧ stop.isAccepting = true) ∧
      (answer = .ok false → stop = .start dfa) ∧
      ∀ e, answer = .error e → ∃ s c, IsLeast {s | t.ViableFrom line s} s ∧
        (line.drop (alphabetEnd line)).head? = some c ∧ e = .characterOutOfRange c ∧
        (Cursor.start dfa).read ((line.take (alphabetEnd line)).drop s) = .ok stop ∧
        stop.isAccepting = false := by
  intro dfa
  obtain ⟨parts, outside⟩ := Regex.parts_of_line line
  have stops := Cursor.stopsAt_search (c := .start dfa) rfl outside
    (bytesOf (line.take (alphabetEnd line)))
  rw [parts] at stops
  generalize searched : (Cursor.start dfa).search line = outcome at stops
  refine ⟨outcome.1, outcome.2, fun current => ?_, fun answer => ?_, fun answer => ?_,
    fun e answer => stops.of_failed answer⟩
  · have same : (Cursor.mk dfa current).search line = outcome :=
      (Cursor.search_congr (show (Cursor.mk dfa current).dfa = (Cursor.start dfa).dfa from rfl)
        line).trans searched
    show ((Cursor.search ⟨dfa, current⟩ line).1,
      Automaton.deterministic (Cursor.search ⟨dfa, current⟩ line).2) = _
    rw [same]
  · have found := stops.of_found answer outside
    rwa [parts] at found
  · cases stops with
    | found | outside => cases answer
    | unfound => rfl

end LineGrep
