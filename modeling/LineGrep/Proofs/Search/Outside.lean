import LineGrep.Proofs.Search.Containment
import LineGrep.Proofs.Search.Range
import Mathlib.Data.Nat.Find
import Mathlib.Order.Bounds.Defs

/-!
Searching a line that leaves the alphabet. The search stops at a word of the language, or at the
character outside the alphabet in the attempt from the first place from which the line could go on.
Main statement: the answer is that a word is found or the error for that character, according to
the words that start no later than the first part of the line that could go on.
-/

namespace LineGrep

/-- A word of the language is a part of a given word and starts at a given place or before it. -/
def Regex.StartsBy (t : Regex) (w : List UInt8) (s : Nat) : Prop :=
  ∃ i, i ≤ s ∧ ∃ u, u <+: w.drop i ∧ t.Matches u

namespace Regex

variable {t : Regex} {w : List UInt8}

/-- The words of the language that are parts of a word, by the places where they start and end. -/
theorem startsBy_iff {s : Nat} (h : s ≤ w.length) : t.StartsBy w s ↔
    ∃ i j, i ≤ s ∧ i ≤ j ∧ j ≤ w.length ∧ t.Matches ((w.take j).drop i) := by
  constructor
  · rintro ⟨i, le, u, front, word⟩
    have short := front.length_le
    rw [List.length_drop] at short
    refine ⟨i, i + u.length, le, Nat.le_add_right _ _, by omega, ?_⟩
    rw [List.drop_take, Nat.add_sub_cancel_left, ← List.prefix_iff_eq_take.1 front]
    exact word
  · rintro ⟨i, j, le, -, -, word⟩
    rw [List.drop_take] at word
    exact ⟨i, le, _, List.take_prefix _ _, word⟩

end Regex

namespace Cursor

variable {c : Cursor} {t : Regex} {ch : Char}

/-- The search of a line that leaves the alphabet after a word, where the given place is the first
from which the word could go on. -/
theorem search_outside (kept : c.dfa = Dfa.ofNfa (.ofRegex t)) (outside : byteOf? ch = none)
    (rest : List Char) {w : List UInt8} {s : Nat} (viable : t.Viable (w.drop s))
    (least : ∀ i < s, ¬t.Viable (w.drop i)) :
    (t.StartsBy w s → (c.search (w.map charOf ++ ch :: rest)).1 = .ok true) ∧
      (¬t.StartsBy w s →
        (c.search (w.map charOf ++ ch :: rest)).1 = .error (.characterOutOfRange ch)) := by
  have first : ∀ x ∈ (ch :: rest).head?, byteOf? x = none := by simpa using outside
  have stops := stopsAt_search kept first w
  generalize c.search (w.map charOf ++ ch :: rest) = outcome at stops ⊢
  cases stops with
  | @found i u next inside passed completes read hasRead =>
    refine ⟨fun _ => rfl, fun unfound => absurd ⟨i, ?_, u, completes.front, completes.word⟩ unfound⟩
    by_contra after
    exact (passed s (by omega)).stuck (List.cons_ne_nil ch rest) viable
  | unfound same => cases same
  | @outside s' ch' rest' stop same inside passed viable' unmatched read hasRead =>
    obtain ⟨rfl, rfl⟩ := List.cons.inj same
    refine ⟨?_, fun _ => rfl⟩
    rintro ⟨i, le, u, front, word⟩
    have order : s ≤ s' := by
      by_contra before
      exact least s' (by omega) viable'
    -- The places before are passed over, and from this one the attempt found no word.
    rcases Nat.lt_or_eq_of_le (Nat.le_trans le order) with before | rfl
    · exact absurd word ((passed i before).unmatched u front)
    · exact absurd word (unmatched u front)

end Cursor

/-- Some part of a line that starts at one place or before it and ends at another or before it is a
word of the language. -/
def Regex.OccursWithin (t : Regex) (text : List Char) (start stop : Nat) : Prop :=
  ∃ i j, i ≤ start ∧ i ≤ j ∧ j ≤ stop ∧ t.Matches (bytesOf ((text.take j).drop i))

/-- The part of a line from a place to its first character outside the alphabet can be continued to
a word of the language. -/
def Regex.ViableFrom (t : Regex) (text : List Char) (s : Nat) : Prop :=
  s ≤ alphabetEnd text ∧ t.Viable (bytesOf ((text.take (alphabetEnd text)).drop s))

/-- A word of the language is found in a line: in a line that leaves the alphabet, one that starts
no later than each place from which the line could go on, and in another line any one. -/
def Regex.FoundIn (t : Regex) (text : List Char) : Prop :=
  if alphabetEnd text < text.length then
    ∀ s, t.ViableFrom text s → t.OccursWithin text s (alphabetEnd text)
  else t.OccursIn text

namespace Regex

variable {t : Regex} {text : List Char} {s : Nat}

theorem viableFrom_iff : t.ViableFrom text s ↔
    s ≤ alphabetEnd text ∧ t.Viable ((bytesOf (text.take (alphabetEnd text))).drop s) := by
  have whole : (bytesOf (text.take (alphabetEnd text))).take (alphabetEnd text) =
      bytesOf (text.take (alphabetEnd text)) :=
    List.take_of_length_le (Nat.le_of_eq (length_bytesOf_take text))
  rw [ViableFrom, bytesOf_part (Nat.le_refl _), whole]

theorem exists_least_viableFrom (t : Regex) (text : List Char) :
    ∃ s, IsLeast {s | t.ViableFrom text s} s := by
  classical
  have last : ∃ s, t.ViableFrom text s := by
    refine ⟨alphabetEnd text, viableFrom_iff.2 ⟨Nat.le_refl _, ?_⟩⟩
    rw [List.drop_of_length_le (Nat.le_of_eq (length_bytesOf_take text))]
    exact t.viable_nil
  exact ⟨Nat.find last, Nat.find_spec last, fun i mem => Nat.find_min' last mem⟩

theorem OccursWithin.mono {start stop : Nat} (h : t.OccursWithin text start stop) (le : start ≤ s) :
    t.OccursWithin text s stop := by
  obtain ⟨i, j, first, order, last, word⟩ := h
  exact ⟨i, j, Nat.le_trans first le, order, last, word⟩

theorem foundIn_iff_of_least (leaves : alphabetEnd text < text.length)
    (least : IsLeast {s | t.ViableFrom text s} s) :
    t.FoundIn text ↔ t.OccursWithin text s (alphabetEnd text) := by
  rw [FoundIn, if_pos leaves]
  exact ⟨fun found => found s least.1, fun found k viable => found.mono (least.2 viable)⟩

theorem foundIn_iff_occursIn (stays : alphabetEnd text = text.length) :
    t.FoundIn text ↔ t.OccursIn text := by
  rw [FoundIn, if_neg (Nat.not_lt.2 (Nat.le_of_eq stays.symm))]

theorem occursWithin_iff (h : s ≤ alphabetEnd text) : t.OccursWithin text s (alphabetEnd text) ↔
    t.StartsBy (bytesOf (text.take (alphabetEnd text))) s := by
  rw [startsBy_iff (by rwa [length_bytesOf_take]), length_bytesOf_take]
  constructor
  · rintro ⟨i, j, le, order, before, word⟩
    exact ⟨i, j, le, order, before, bytesOf_part before ▸ word⟩
  · rintro ⟨i, j, le, order, before, word⟩
    exact ⟨i, j, le, order, before, (bytesOf_part before).symm ▸ word⟩

end Regex

namespace Cursor

variable {c : Cursor} {t : Regex} {text : List Char}

/-- The search of a line that leaves the alphabet, whatever follows there. -/
theorem search_take_append (kept : c.dfa = Dfa.ofNfa (.ofRegex t))
    (leaves : alphabetEnd text < text.length) {s : Nat}
    (least : IsLeast {s | t.ViableFrom text s} s) (rest : List Char) :
    let answer := (c.search (text.take (alphabetEnd text + 1) ++ rest)).1
    (t.OccursWithin text s (alphabetEnd text) → answer = .ok true) ∧
      (¬t.OccursWithin text s (alphabetEnd text) →
        answer = .error (.characterOutOfRange text[alphabetEnd text])) := by
  obtain ⟨inside, viable⟩ := Regex.viableFrom_iff.1 least.1
  have outside : byteOf? text[alphabetEnd text] = none :=
    byteOf?_eq_none_iff.2 (le_toNat_of_getElem?_alphabetEnd (List.getElem?_eq_getElem leaves))
  rw [take_succ_append leaves, Regex.occursWithin_iff inside]
  refine search_outside kept outside rest viable fun i lt viable' => ?_
  have earlier : t.ViableFrom text i := Regex.viableFrom_iff.2 ⟨by omega, viable'⟩
  have le : s ≤ i := least.2 earlier
  omega

/-- The search of a line, whether it leaves the alphabet or not. -/
theorem settles_search (kept : c.dfa = Dfa.ofNfa (.ofRegex t)) (text : List Char) :
    Settles (c.search text).1 text (t.FoundIn text) := by
  rcases alphabetEnd_lt_or_eq text with leaves | stays
  · obtain ⟨s, least⟩ := t.exists_least_viableFrom text
    have answer := search_take_append kept leaves least (text.drop (alphabetEnd text + 1))
    rw [List.take_append_drop, ← Regex.foundIn_iff_of_least leaves least] at answer
    refine ⟨answer.1, fun unfound => ?_⟩
    rw [unmatched, List.getElem?_eq_getElem leaves]
    exact answer.2 unfound
  · have alphabet : (bytesOf text).map charOf = text := by
      have whole := map_charOf_bytesOf_take text
      rwa [stays, List.take_length] at whole
    have told := tells_search kept (bytesOf text)
    rw [← Regex.occursIn_map_charOf_iff, alphabet, ← Regex.foundIn_iff_occursIn stays] at told
    refine ⟨told.eq_ok_iff.1.2, fun unfound => ?_⟩
    rw [unmatched, stays, List.getElem?_eq_none (Nat.le_refl _)]
    exact told.eq_ok_iff.2.2 unfound

end Cursor

/-- The search of a line that leaves the alphabet, wherever the cursor was before. The part of the
line up to the first character outside the alphabet can be continued to a word of the language from
some place on. The answer is that something is found if a word of the language lies in that part and
starts no later than the first such place, and an error for the character outside if not. What
follows this character has no influence. -/
theorem Automaton.search_outside_alphabet (t : Regex) (current : Nat) (text : List Char)
    (leaves : alphabetEnd text < text.length) :
    let a : Automaton := .deterministic ⟨Dfa.ofNfa (.ofRegex t), current⟩
    ∃ s, IsLeast {s | t.ViableFrom text s} s ∧
      (t.OccursWithin text s (alphabetEnd text) → (a.search text).1 = .ok true) ∧
      (¬t.OccursWithin text s (alphabetEnd text) →
        (a.search text).1 = .error (.characterOutOfRange text[alphabetEnd text])) ∧
      (a.search text).1 ≠ .ok false ∧
      ∀ rest, (a.search (text.take (alphabetEnd text + 1) ++ rest)).1 = (a.search text).1 := by
  intro a
  obtain ⟨s, least⟩ := t.exists_least_viableFrom text
  let c : Cursor := ⟨Dfa.ofNfa (.ofRegex t), current⟩
  have answer (rest : List Char) := Cursor.search_take_append (c := c) rfl leaves least rest
  have whole := answer (text.drop (alphabetEnd text + 1))
  rw [List.take_append_drop] at whole
  refine ⟨s, least, whole.1, whole.2, ?_, fun rest => ?_⟩
  · by_cases found : t.OccursWithin text s (alphabetEnd text)
    · rw [show (a.search text).1 = .ok true from whole.1 found]
      simp
    · rw [show (a.search text).1 = .error _ from whole.2 found]
      simp
  · by_cases found : t.OccursWithin text s (alphabetEnd text)
    · exact ((answer rest).1 found).trans (whole.1 found).symm
    · exact ((answer rest).2 found).trans (whole.2 found).symm

theorem Automaton.search_stops_at_outside :
    alphabetEnd ['x', 'a', '€', 'a', 'b'] < ['x', 'a', '€', 'a', 'b'].length ∧
      ((Automaton.deterministic
        ⟨Dfa.ofNfa (.ofRegex (.cat (.literal 97) (.literal 98))), 7⟩).search
          ['x', 'a', '€', 'a', 'b']).1 = .error (.characterOutOfRange '€') := by
  have leaves : alphabetEnd ['x', 'a', '€', 'a', 'b'] < ['x', 'a', '€', 'a', 'b'].length := by
    decide
  obtain ⟨s, -, -, unfound, -, -⟩ :=
    search_outside_alphabet (.cat (.literal 97) (.literal 98)) 7 ['x', 'a', '€', 'a', 'b'] leaves
  refine ⟨leaves, unfound ?_⟩
  rintro ⟨i, j, -, -, before, word⟩
  -- A word of the language has a `b`, and there is none before the character outside.
  obtain ⟨u, v, split, -, second⟩ := Regex.matches_cat_iff.1 word
  obtain rfl := Regex.matches_literal_iff.1 second
  have last : 98 ∈ bytesOf ((['x', 'a', '€', 'a', 'b'].take j).drop i) := by simp [split]
  obtain ⟨ch, mem, value⟩ := List.mem_filterMap.1 last
  have early : ch ∈ ['x', 'a', '€', 'a', 'b'].take 2 :=
    List.take_subset_take_left _ before (List.mem_of_mem_drop mem)
  have either : ch = 'x' ∨ ch = 'a' := by simpa using early
  rcases either with rfl | rfl
  · exact absurd value (by decide)
  · exact absurd value (by decide)

end LineGrep
