import LineGrep.Automaton.Error
import LineGrep.Proofs.Alphabet

/-!
How far a line can be read. A search stops at the first character outside the alphabet, and this
character is its answer if nothing has been found before. Main statement: up to there, a line is the
text of a word of bytes.
-/

namespace LineGrep

/-- The place of the first character of a text outside the alphabet, or the length of a text that
has no such character. -/
def alphabetEnd (text : List Char) : Nat :=
  text.findIdx fun c => alphabetSize ≤ c.toNat

variable {text : List Char}

theorem alphabetEnd_le (text : List Char) : alphabetEnd text ≤ text.length :=
  List.findIdx_le_length

/-- A text leaves the alphabet or stays in it. -/
theorem alphabetEnd_lt_or_eq (text : List Char) :
    alphabetEnd text < text.length ∨ alphabetEnd text = text.length :=
  Nat.lt_or_eq_of_le (alphabetEnd_le text)

theorem toNat_lt_of_lt_alphabetEnd {k : Nat} {c : Char} (h : text[k]? = some c)
    (before : k < alphabetEnd text) : c.toNat < alphabetSize := by
  obtain ⟨lt, rfl⟩ := List.getElem?_eq_some_iff.1 h
  exact Nat.not_le.1 (of_decide_eq_false (List.not_of_lt_findIdx before))

theorem le_toNat_of_getElem?_alphabetEnd {c : Char} (h : text[alphabetEnd text]? = some c) :
    alphabetSize ≤ c.toNat := by
  obtain ⟨lt, rfl⟩ := List.getElem?_eq_some_iff.1 h
  exact of_decide_eq_true (List.findIdx_getElem (w := lt))

/-- Up to the first character outside the alphabet, a text is that of its bytes. -/
theorem map_charOf_bytesOf_take (text : List Char) :
    (bytesOf (text.take (alphabetEnd text))).map charOf = text.take (alphabetEnd text) := by
  apply map_charOf_bytesOf
  intro c mem
  obtain ⟨k, lt, rfl⟩ := List.mem_take_iff_getElem.1 mem
  have before : k < alphabetEnd text := by omega
  exact toNat_lt_of_lt_alphabetEnd (List.getElem?_eq_getElem (by omega)) before

theorem length_bytesOf_take (text : List Char) :
    (bytesOf (text.take (alphabetEnd text))).length = alphabetEnd text := by
  have same := congrArg List.length (map_charOf_bytesOf_take text)
  have le := alphabetEnd_le text
  simp only [List.length_map, List.length_take] at same
  omega

/-- A text that leaves the alphabet is that of a word, then a character outside, and then a rest
that can be any. -/
theorem take_succ_append (h : alphabetEnd text < text.length) (rest : List Char) :
    text.take (alphabetEnd text + 1) ++ rest =
      (bytesOf (text.take (alphabetEnd text))).map charOf ++ text[alphabetEnd text] :: rest := by
  rw [map_charOf_bytesOf_take, List.take_succ_eq_append_getElem h, List.append_assoc]
  rfl

/-- A part of a text that ends before the first character outside the alphabet, read as bytes. -/
theorem bytesOf_part {i j : Nat} (h : j ≤ alphabetEnd text) :
    bytesOf ((text.take j).drop i) = ((bytesOf (text.take (alphabetEnd text))).take j).drop i := by
  have front : text.take j = (text.take (alphabetEnd text)).take j := by
    rw [List.take_take, Nat.min_eq_left h]
  rw [front, ← map_charOf_bytesOf_take, ← List.map_take, ← List.map_drop, bytesOf_map_charOf,
    bytesOf_map_charOf]

/-- The answer to a line in which nothing is found: an error if the line leaves the alphabet. -/
def unmatched (text : List Char) : Except AutomatonError Bool :=
  match text[alphabetEnd text]? with
  | none => .ok false
  | some c => .error (.characterOutOfRange c)

/-- The answer to a line is that something is found if a statement holds, and the answer to a line
in which nothing is found if not. -/
structure Settles (answer : Except AutomatonError Bool) (text : List Char) (p : Prop) : Prop where
  found : p → answer = .ok true
  unfound : ¬p → answer = unmatched text

theorem unmatched_ne (text : List Char) : unmatched text ≠ .ok true := by
  unfold unmatched
  split <;> simp

namespace Settles

variable {answer other : Except AutomatonError Bool} {p : Prop}

theorem unique (h : Settles answer text p) (h' : Settles other text p) : answer = other := by
  by_cases holds : p
  · rw [h.found holds, h'.found holds]
  · rw [h.unfound holds, h'.unfound holds]

theorem eq_ok_iff (h : Settles answer text p) : answer = .ok true ↔ p := by
  refine ⟨fun found => Classical.byContradiction fun unfound => ?_, h.found⟩
  exact unmatched_ne text ((h.unfound unfound).symm.trans found)

end Settles

end LineGrep
