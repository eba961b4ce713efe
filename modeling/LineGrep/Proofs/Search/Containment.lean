import LineGrep.Proofs.Search.Attempt

/-!
What the search of a line comes to that stays within the alphabet. It stops at a word of the
language or has passed over all places of the line. Main statement: the search tells whether some
part of the line is a word of the language.
-/

namespace LineGrep

/-- Some part of a line, from one place to another, is a word of the language. -/
def Regex.OccursIn (t : Regex) (line : List Char) : Prop :=
  ∃ i j, i ≤ j ∧ j ≤ line.length ∧ t.Matches (bytesOf ((line.take j).drop i))

theorem Regex.occursIn_map_charOf_iff {t : Regex} {w : List UInt8} :
    t.OccursIn (w.map charOf) ↔ ∃ u, u <:+: w ∧ t.Matches u := by
  simp only [OccursIn, ← List.map_take, ← List.map_drop, bytesOf_map_charOf, List.length_map]
  constructor
  · rintro ⟨i, j, -, -, word⟩
    exact ⟨_, ((List.drop_suffix i _).isInfix).trans (List.take_prefix j w).isInfix, word⟩
  · rintro ⟨u, ⟨front, back, rfl⟩, word⟩
    refine ⟨front.length, front.length + u.length, Nat.le_add_right _ _, by simp, ?_⟩
    simpa [List.take_append] using word

namespace Cursor

/-- An answer without error tells whether a statement holds. -/
def Tells (answer : Except AutomatonError Bool) (p : Prop) : Prop :=
  ∃ b, answer = .ok b ∧ (b = true ↔ p)

theorem Tells.of_true {p : Prop} (h : p) : Tells (.ok true) p :=
  ⟨true, rfl, by simpa using h⟩

theorem Tells.of_false {p : Prop} (h : ¬p) : Tells (.ok false) p :=
  ⟨false, rfl, by simpa using h⟩

theorem Tells.eq_ok_iff {answer : Except AutomatonError Bool} {p : Prop} (h : Tells answer p) :
    (answer = .ok true ↔ p) ∧ (answer = .ok false ↔ ¬p) := by
  obtain ⟨b, rfl, told⟩ := h
  rw [← told]
  cases b <;> simp

theorem tells_search {t : Regex} {c : Cursor} (kept : c.dfa = Dfa.ofNfa (.ofRegex t))
    (w : List UInt8) : Tells (c.search (w.map charOf)).1 (∃ u, u <:+: w ∧ t.Matches u) := by
  have within : ∀ ch ∈ ([] : List Char).head?, byteOf? ch = none := by simp
  have stops := stopsAt_search kept within w
  rw [List.append_nil] at stops
  generalize c.search (w.map charOf) = outcome at stops ⊢
  cases stops with
  | @found i u next inside passed completes read hasRead =>
    have inWord : u <:+: w := completes.front.isInfix.trans (List.drop_suffix i w).isInfix
    exact .of_true ⟨u, inWord, completes.word⟩
  | unfound _ passed =>
    apply Tells.of_false
    rintro ⟨u, ⟨front, back, rfl⟩, word⟩
    apply (passed front.length (by simp)).unmatched u ?_ word
    simp
  | outside same => cases same

end Cursor

/-- The search for an expression answers, without error, whether some part of the line is a word of
its language. -/
theorem Automaton.search_iff_occursIn (t : Regex) (line : List Char)
    (alphabet : ∀ c ∈ line, c.toNat < alphabetSize) :
    (((ofRegex t).determinize.value.search line).1 = .ok true ↔ t.OccursIn line) ∧
      (((ofRegex t).determinize.value.search line).1 = .ok false ↔ ¬t.OccursIn line) := by
  rw [← map_charOf_bytesOf alphabet, Regex.occursIn_map_charOf_iff]
  exact (Cursor.tells_search rfl _).eq_ok_iff

theorem Automaton.search_finds_inside :
    (∀ c ∈ ['b', 'a', 'b', 'c'], c.toNat < alphabetSize) ∧
      ((ofRegex (.cat (.literal 97) (.literal 98))).determinize.value.search
        ['b', 'a', 'b', 'c']).1 = .ok true := by
  have alphabet : ∀ c ∈ ['b', 'a', 'b', 'c'], c.toNat < alphabetSize := by simp [alphabetSize]
  refine ⟨alphabet, (search_iff_occursIn _ _ alphabet).1.2 ⟨1, 3, by decide, by decide, ?_⟩⟩
  exact .cat (.literal 97) (.literal 98)

end LineGrep
