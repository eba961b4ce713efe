import LineGrep.Proofs.Search.Agreement

/-!
Lines that go on. A text after a line has no influence if the line leaves the alphabet, and it takes
nothing away if it stays in the alphabet, too. But an attempt that has not found a match by the end
of the line can go on to a character outside the alphabet, and then it decides the answer, though a
match starts further right. Main statement: in this case only, a match is lost to what follows it,
and never if the pattern has no structure.
-/

namespace LineGrep

open Factor (FitsAt)

variable {u v : List Char}

theorem alphabetEnd_append (u v : List Char) : alphabetEnd (u ++ v) =
    if alphabetEnd u < u.length then alphabetEnd u else alphabetEnd v + u.length :=
  List.findIdx_append

theorem alphabetEnd_le_append (u v : List Char) : alphabetEnd u ≤ alphabetEnd (u ++ v) := by
  have le := alphabetEnd_le u
  rw [alphabetEnd_append]
  split <;> omega

/-- A line stays in the alphabet if a longer one does. -/
theorem alphabetEnd_eq_of_append (stays : alphabetEnd (u ++ v) = (u ++ v).length) :
    alphabetEnd u = u.length := by
  have le := alphabetEnd_le u
  rw [alphabetEnd_append, List.length_append] at stays
  split at stays <;> omega

theorem Factor.FitsAt.append {pattern : List Char} {i : Nat} (h : FitsAt pattern u i)
    (v : List Char) : FitsAt pattern (u ++ v) i := by
  obtain ⟨before, fits⟩ := h
  have inside := alphabetEnd_le u
  refine ⟨before.trans (alphabetEnd_le_append u v), fun k lt => ?_⟩
  rw [List.getElem?_append_left (by omega)]
  exact fits k lt

namespace Regex

variable {t : Regex}

theorem OccursIn.append (h : t.OccursIn u) (v : List Char) : t.OccursIn (u ++ v) := by
  obtain ⟨i, j, order, before, word⟩ := h
  refine ⟨i, j, order, ?_, ?_⟩
  · rw [List.length_append]
    exact Nat.le_add_right_of_le before
  · rwa [List.take_append_of_le_length before]

theorem occursWithin_append_iff {start stop : Nat} (before : stop ≤ u.length) (v : List Char) :
    t.OccursWithin (u ++ v) start stop ↔ t.OccursWithin u start stop := by
  have same (i : Nat) {j : Nat} (last : j ≤ stop) :
      ((u ++ v).take j).drop i = (u.take j).drop i := by
    rw [List.take_append_of_le_length (last.trans before)]
  constructor
  · rintro ⟨i, j, first, order, last, word⟩
    exact ⟨i, j, first, order, last, same i last ▸ word⟩
  · rintro ⟨i, j, first, order, last, word⟩
    exact ⟨i, j, first, order, last, (same i last).symm ▸ word⟩

/-- What follows the first character outside the alphabet has no influence. -/
theorem foundIn_append_iff_of_leaves (leaves : alphabetEnd u < u.length) (v : List Char) :
    t.FoundIn (u ++ v) ↔ t.FoundIn u := by
  have last : alphabetEnd (u ++ v) = alphabetEnd u := by rw [alphabetEnd_append, if_pos leaves]
  have leaves' : alphabetEnd u < (u ++ v).length := by
    rw [List.length_append]
    omega
  have viable (s : Nat) : t.ViableFrom (u ++ v) s ↔ t.ViableFrom u s := by
    rw [ViableFrom, ViableFrom, last, List.take_append_of_le_length (Nat.le_of_lt leaves)]
  simp only [FoundIn, last, if_pos leaves, if_pos leaves', viable,
    occursWithin_append_iff (Nat.le_of_lt leaves)]

theorem FoundIn.append_of_stays (h : t.FoundIn u)
    (stays : alphabetEnd (u ++ v) = (u ++ v).length) : t.FoundIn (u ++ v) :=
  (foundIn_iff_occursIn stays).2
    (((foundIn_iff_occursIn (alphabetEnd_eq_of_append stays)).1 h).append v)

/-- Something that is found in a line is found in a longer one if the line leaves the alphabet, if
the longer line does not, or if a word starts no later than each place from which the longer line
could go on. -/
theorem FoundIn.append_iff (h : t.FoundIn u) : t.FoundIn (u ++ v) ↔
    alphabetEnd u < u.length ∨ alphabetEnd (u ++ v) = (u ++ v).length ∨
      ∀ s, t.ViableFrom (u ++ v) s → t.OccursWithin (u ++ v) s (alphabetEnd (u ++ v)) := by
  constructor
  · intro found
    rcases alphabetEnd_lt_or_eq (u ++ v) with leaves | stays
    · rw [FoundIn, if_pos leaves] at found
      exact Or.inr (Or.inr found)
    · exact Or.inr (Or.inl stays)
  · rintro (leaves | stays | covered)
    · exact (foundIn_append_iff_of_leaves leaves v).2 h
    · exact h.append_of_stays stays
    · rcases alphabetEnd_lt_or_eq (u ++ v) with leaves | stays
      · rwa [FoundIn, if_pos leaves]
      · exact h.append_of_stays stays

theorem FoundIn.append_of_denotes {pattern : List Char} (h : t.FoundIn u)
    (denotes : Pattern.Denotes t pattern) (v : List Char) : t.FoundIn (u ++ v) := by
  rw [foundIn_iff_fitsAt denotes] at h ⊢
  obtain ⟨i, fits⟩ := h
  exact ⟨i, fits.append v⟩

/-- The expression `abc|b`: the end of `ab` is a match, while `ab` could go on to another one. -/
def pending : Regex :=
  .alt (.cat (.cat (.literal 97) (.literal 98)) (.literal 99)) (.literal 98)

theorem matches_pending_iff {w : List UInt8} :
    pending.Matches w ↔ w = [97, 98, 99] ∨ w = [98] := by
  simp [pending, matches_alt_iff, matches_cat_iff, matches_literal_iff]

theorem foundIn_pending : pending.FoundIn ['a', 'b'] :=
  (foundIn_iff_occursIn (by decide)).2
    ⟨1, 2, by decide, by decide, matches_pending_iff.2 (by decide)⟩

theorem not_foundIn_pending : ¬pending.FoundIn ['a', 'b', '€'] := by
  have stop : alphabetEnd ['a', 'b', '€'] = 2 := by decide
  rw [FoundIn, if_pos (by decide), stop]
  intro covered
  -- The line could go on from its beginning, and no word starts there.
  have viable : pending.ViableFrom ['a', 'b', '€'] 0 :=
    ⟨Nat.zero_le _, [99], matches_pending_iff.2 (by decide)⟩
  obtain ⟨i, j, first, -, last, word⟩ := covered 0 viable
  obtain rfl : i = 0 := Nat.le_zero.1 first
  have short : j = 0 ∨ j = 1 ∨ j = 2 := by omega
  rcases short with rfl | rfl | rfl <;> exact absurd (matches_pending_iff.1 word) (by decide)

end Regex

theorem Pattern.parse_pending : parse ['a', 'b', 'c', '|', 'b'] = .ok .pending := by
  cbv

namespace Strategy

variable {pattern : List Char} {kind : SearchKind} {built : Reported Strategy}

/-- A line in which something is found, and a longer line. Whatever has been searched before each of
them, something is found in the longer line, too, if the line leaves the alphabet, if the longer
line does not leave it, or if a word of the language starts no later than each place from which the
longer line could go on to a word. Only if none of this holds is the match lost, and the answer is
an error for the first character outside the alphabet. No match is lost if the pattern has no
structure. -/
theorem search_append_eq_ok_true_iff (made : withKind pattern kind = .ok built)
    (earlier earlier' : List (List Char)) {u : List Char}
    (found : ((built.value.afterLines earlier).search u).1 = .ok true) (v : List Char) :
    let answer := ((built.value.afterLines earlier').search (u ++ v)).1
    ∃ t, Pattern.parse pattern = .ok t ∧
      (answer = .ok true ↔
        alphabetEnd u < u.length ∨ alphabetEnd (u ++ v) = (u ++ v).length ∨
          ∀ s, t.ViableFrom (u ++ v) s → t.OccursWithin (u ++ v) s (alphabetEnd (u ++ v))) ∧
      (answer ≠ .ok true → ∃ c, (u ++ v)[alphabetEnd (u ++ v)]? = some c ∧
        answer = .error (.characterOutOfRange c)) ∧
      ((¬∃ c ∈ pattern, c = '*' ∨ c = '|' ∨ c = '(' ∨ c = ')') → answer = .ok true) := by
  intro answer
  obtain ⟨t, parsed, serves⟩ := exists_parse_of_withKind made
  have present : t.FoundIn u := ((serves.afterLines earlier).settles parsed u).eq_ok_iff.1 found
  have settles : Settles answer (u ++ v) (t.FoundIn (u ++ v)) :=
    (serves.afterLines earlier').settles parsed (u ++ v)
  refine ⟨t, parsed, settles.eq_ok_iff.trans present.append_iff, fun lost => ?_, fun plain => ?_⟩
  · have missing : ¬t.FoundIn (u ++ v) := mt settles.found lost
    have leaves : alphabetEnd (u ++ v) < (u ++ v).length :=
      (alphabetEnd_lt_or_eq _).resolve_right fun stays => missing (present.append_of_stays stays)
    have place := List.getElem?_eq_getElem leaves
    refine ⟨_, place, ?_⟩
    rw [settles.unfound missing, unmatched, place]
  · have literal : Factor.isLiteral pattern = true := by
      rwa [← Factor.isLiteral_eq_false_iff, Bool.not_eq_false] at plain
    exact settles.found (present.append_of_denotes (Pattern.denotes_of_parse parsed literal) v)

theorem search_append_keeps_longer_match :
    ∃ built, withKind ['a', 'b', 'c', '|', 'b'] .automaton = .ok built ∧
      (built.value.search ['a', 'b']).1 = .ok true ∧
      (built.value.search ['a', 'b', 'c', '€']).1 = .ok true := by
  obtain ⟨built, made, -, serves⟩ :=
    exists_withKind_of_parse Pattern.parse_pending .automaton (by simp [kindFor])
  have found := (serves.settles Pattern.parse_pending _).found Regex.foundIn_pending
  obtain ⟨t, parsed, kept, -⟩ := search_append_eq_ok_true_iff made [] [] found ['c', '€']
  cases Pattern.parse_pending.symm.trans parsed
  refine ⟨built, made, found, kept.2 (Or.inr (Or.inr fun s _ => ?_))⟩
  exact ⟨0, 3, Nat.zero_le s, by decide, by decide, Regex.matches_pending_iff.2 (by decide)⟩

/-- A match can be lost to what follows it: the search of `ab€` for `abc|b` fails, though `ab` has a
match. -/
theorem not_forall_search_append :
    ¬∀ pattern kind built, withKind pattern kind = .ok built →
      ∀ u, (built.value.search u).1 = .ok true →
        ∀ v, (built.value.search (u ++ v)).1 = .ok true := by
  intro kept
  obtain ⟨built, made, -, serves⟩ :=
    exists_withKind_of_parse Pattern.parse_pending .automaton (by simp [kindFor])
  have found := (serves.settles Pattern.parse_pending _).found Regex.foundIn_pending
  have same := kept _ _ built made ['a', 'b'] found ['€']
  have lost := serves.settles Pattern.parse_pending ['a', 'b', '€']
  exact Regex.not_foundIn_pending (lost.eq_ok_iff.1 same)

end Strategy

end LineGrep
