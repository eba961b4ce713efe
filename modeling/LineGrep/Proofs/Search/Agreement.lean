import LineGrep.Proofs.Search.Building
import LineGrep.Proofs.Search.Lines
import LineGrep.Proofs.Search.Outside

/-!
The kinds of search of a literal pattern. A word that fits the pattern has its length, so the first
place from which a line could go on to such a word lies on the right of every place where the
pattern fits. Main statement: whatever they have searched before, searches of different kinds give
the same answer to each line, and find the same lines of a text and skip the same ones.
-/

namespace LineGrep

open Pattern (wildcard Denotes)
open Factor (FitsAt)

namespace Regex

variable {t : Regex} {pattern text : List Char}

/-- A text inside the alphabet is a word of the language if it fits the pattern. -/
theorem matches_bytesOf_iff (denotes : Denotes t pattern)
    (inside : ∀ c ∈ text, c.toNat < alphabetSize) :
    t.Matches (bytesOf text) ↔ pattern.length = text.length ∧
      ∀ k < pattern.length, pattern[k]? = some wildcard ∨ pattern[k]? = text[k]? := by
  have places : List.Forall₂ Pattern.Fits pattern (bytesOf text) ↔
      List.Forall₂ (fun c d => c = wildcard ∨ c = d) pattern text := by
    conv_rhs => rw [← map_charOf_bytesOf inside, List.forall₂_map_right_iff]
    rfl
  rw [denotes, places, List.forall₂_iff_get]
  constructor
  · rintro ⟨same, fits⟩
    refine ⟨same, fun k lt => ?_⟩
    rw [List.getElem?_eq_getElem lt, List.getElem?_eq_getElem (same ▸ lt)]
    simpa using fits k lt (same ▸ lt)
  · rintro ⟨same, fits⟩
    refine ⟨same, fun k lt lt' => ?_⟩
    have place := fits k lt
    rw [List.getElem?_eq_getElem lt, List.getElem?_eq_getElem lt'] at place
    simpa using place

/-- A part of a line is a word of the language exactly if it is a place where the pattern fits. -/
theorem matches_part_iff (denotes : Denotes t pattern) {i j : Nat} (order : i ≤ j)
    (before : j ≤ alphabetEnd text) : t.Matches (bytesOf ((text.take j).drop i)) ↔
      j = i + pattern.length ∧ FitsAt pattern text i := by
  have inside : ∀ c ∈ (text.take j).drop i, c.toNat < alphabetSize := by
    intro c mem
    obtain ⟨k, lt, rfl⟩ := List.mem_take_iff_getElem.1 (List.mem_of_mem_drop mem)
    exact toNat_lt_of_lt_alphabetEnd (List.getElem?_eq_getElem (by omega)) (by omega)
  have le := alphabetEnd_le text
  have length : ((text.take j).drop i).length = j - i := by
    rw [List.length_drop, List.length_take, Nat.min_eq_left (by omega)]
  have part (k : Nat) (lt : i + k < j) : ((text.take j).drop i)[k]? = text[i + k]? := by
    rw [List.getElem?_drop, List.getElem?_take_of_lt lt]
  rw [matches_bytesOf_iff denotes inside, length]
  constructor
  · rintro ⟨same, fits⟩
    refine ⟨by omega, by omega, fun k lt => ?_⟩
    rw [← part k (by omega)]
    exact fits k lt
  · rintro ⟨rfl, -, fits⟩
    refine ⟨by omega, fun k lt => ?_⟩
    rw [part k (by omega)]
    exact fits k lt

/-- A place from which a line could go on to a word of the language is on the right of each place
where the pattern fits, since all words have the length of the pattern. -/
theorem le_of_viableFrom (denotes : Denotes t pattern) {s i : Nat} (viable : t.ViableFrom text s)
    (fits : FitsAt pattern text i) : i ≤ s := by
  obtain ⟨le, rest, word⟩ := viableFrom_iff.1 viable
  have length := ((denotes _).1 word).length_eq
  rw [List.length_append, List.length_drop, length_bytesOf_take] at length
  have upper := fits.1
  omega

theorem occursWithin_iff_fitsAt (denotes : Denotes t pattern) {s : Nat}
    (viable : t.ViableFrom text s) :
    t.OccursWithin text s (alphabetEnd text) ↔ ∃ i, FitsAt pattern text i := by
  constructor
  · rintro ⟨i, j, -, order, before, word⟩
    exact ⟨i, ((matches_part_iff denotes order before).1 word).2⟩
  · rintro ⟨i, fits⟩
    refine ⟨i, i + pattern.length, le_of_viableFrom denotes viable fits, Nat.le_add_right _ _,
      fits.1, ?_⟩
    exact (matches_part_iff denotes (Nat.le_add_right _ _) fits.1).2 ⟨rfl, fits⟩

theorem occursIn_iff_fitsAt (denotes : Denotes t pattern) (stays : alphabetEnd text = text.length) :
    t.OccursIn text ↔ ∃ i, FitsAt pattern text i := by
  constructor
  · rintro ⟨i, j, order, before, word⟩
    exact ⟨i, ((matches_part_iff denotes order (stays ▸ before)).1 word).2⟩
  · rintro ⟨i, fits⟩
    have before := fits.1
    refine ⟨i, i + pattern.length, Nat.le_add_right _ _, stays ▸ before, ?_⟩
    exact (matches_part_iff denotes (Nat.le_add_right _ _) before).2 ⟨rfl, fits⟩

theorem foundIn_iff_fitsAt (denotes : Denotes t pattern) :
    t.FoundIn text ↔ ∃ i, FitsAt pattern text i := by
  rcases alphabetEnd_lt_or_eq text with leaves | stays
  · obtain ⟨s, least⟩ := t.exists_least_viableFrom text
    rw [foundIn_iff_of_least leaves least, occursWithin_iff_fitsAt denotes least.1]
  · rw [foundIn_iff_occursIn stays, occursIn_iff_fitsAt denotes stays]

end Regex

/-- A pattern without structure is read as an expression for the words that fit it. -/
theorem Pattern.denotes_of_parse {pattern : List Char} {t : Regex} (parsed : parse pattern = .ok t)
    (literal : Factor.isLiteral pattern = true) : Denotes t pattern := by
  have derives := derives_of_parse_eq parsed
  obtain ⟨t', parsed', denotes⟩ :=
    exists_parse_of_plain derives.ne_nil (Factor.isLiteral_iff.1 literal) derives.alphabet
  cases parsed.symm.trans parsed'
  exact denotes

namespace Strategy

variable {pattern : List Char} {t : Regex} {s : Strategy}

/-- What strategies for one pattern find in a line is the same for all of them. -/
theorem Serves.settles (h : Serves pattern t s) (parsed : Pattern.parse pattern = .ok t)
    (line : List Char) : Settles (s.search line).1 line (t.FoundIn line) := by
  cases h with
  | kmp literal =>
    rw [Regex.foundIn_iff_fitsAt (Pattern.denotes_of_parse parsed literal)]
    exact Factor.settles_search (Pattern.derives_of_parse_eq parsed).ne_nil line
  | automaton kept => exact Cursor.settles_search kept line

theorem Serves.search (h : Serves pattern t s) (line : List Char) :
    Serves pattern t (s.search line).2 := by
  cases h with
  | kmp literal => exact .kmp literal
  | automaton kept => exact .automaton ((Cursor.dfa_search _ line).trans kept)

theorem Serves.afterLines (h : Serves pattern t s) (lines : List (List Char)) :
    Serves pattern t (s.afterLines lines) := by
  induction lines generalizing s with
  | nil => exact h
  | cons line rest ih => exact ih (h.search line)

/-- All kinds of search agree on a pattern without structural characters. If it can be searched for
in one way it can be in each, and whatever has been searched before, the answers to a line are the
same, and so are the lines found in a text and those reported as skipped. -/
theorem search_independent_of_kind {kind : SearchKind} {built : Reported Strategy}
    (plain : ∀ c ∈ pattern, c ≠ '*' ∧ c ≠ '|' ∧ c ≠ '(' ∧ c ≠ ')')
    (made : withKind pattern kind = .ok built) (first second : SearchKind) :
    ∃ a b, withKind pattern first = .ok a ∧ withKind pattern second = .ok b ∧
      ∀ earlier earlier' : List (List Char),
        (∀ line, ((a.value.afterLines earlier).search line).1 =
          ((b.value.afterLines earlier').search line).1) ∧
        ∀ source,
          ((a.value.afterLines earlier).searchText source).result =
            ((b.value.afterLines earlier').searchText source).result ∧
          ((a.value.afterLines earlier).searchText source).events =
            ((b.value.afterLines earlier').searchText source).events := by
  obtain ⟨t, parsed, -⟩ := exists_parse_of_withKind made
  have literal : Factor.isLiteral pattern = true := by
    rw [Factor.isLiteral_iff]
    intro c mem
    obtain ⟨star, bar, opening, closing⟩ := plain c mem
    simp [Pattern.isStructural, star, bar, opening, closing]
  obtain ⟨a, madeFirst, -, first⟩ :=
    exists_withKind_of_parse parsed first fun _ => literal
  obtain ⟨b, madeSecond, -, second⟩ :=
    exists_withKind_of_parse parsed second fun _ => literal
  refine ⟨a, b, madeFirst, madeSecond, ?_⟩
  intro earlier earlier'
  have alike (line : List Char) : ((a.value.afterLines earlier).search line).1 =
      ((b.value.afterLines earlier').search line).1 :=
    ((first.afterLines earlier).settles parsed line).unique
      ((second.afterLines earlier').settles parsed line)
  exact ⟨alike, fun source => searchLines_congr alike _ _ _⟩

theorem search_wildcard_by_automaton :
    ∃ b, withKind ['a', '.', 'c'] .automaton = .ok b ∧ ∀ earlier line,
      ((b.value.afterLines earlier).search line).1 =
        (Factor.ofChars ['a', '.', 'c']).search line := by
  have made : withKind ['a', '.', 'c'] .kmp =
      .ok ⟨.kmp (.ofChars ['a', '.', 'c']), [.searchChosen ['a', '.', 'c'] .kmp]⟩ := rfl
  obtain ⟨a, b, literal, automaton, agree⟩ :=
    search_independent_of_kind (by simp) made .kmp .automaton
  cases made.symm.trans literal
  exact ⟨b, automaton, fun earlier line => ((agree [] earlier).1 line).symm⟩

end Strategy

end LineGrep
