import LineGrep.Proofs.Search.Border
import LineGrep.Proofs.Search.Range
import LineGrep.Search.Window

/-!
Searching a line for a literal. The window keeps that what has been compared fits, and that the
literal fits nowhere on the left of where it is laid; a fall-back keeps this since a place that it
passes over would give a border longer than the carry-over. Main statement: the search finds a
literal exactly if it fits somewhere before the first character outside the alphabet.
-/

namespace LineGrep

open Pattern (wildcard)

namespace Factor

variable {pattern text : List Char}

/-- A literal fits a line at a place, before the first character outside the alphabet: each of its
characters is the wildcard or that of the line. -/
def FitsAt (pattern text : List Char) (i : Nat) : Prop :=
  i + pattern.length ≤ alphabetEnd text ∧
    ∀ k < pattern.length, pattern[k]? = some wildcard ∨ pattern[k]? = text[i + k]?

theorem FitsAt.suits {i k : Nat} (h : FitsAt pattern text i) (inside : k < pattern.length)
    {c : Char} (at' : text[i + k]? = some c) : Suits pattern k c := by
  have fits := h.2 k inside
  rwa [at'] at fits

theorem size_ofChars (pattern : List Char) : (ofChars pattern).size = pattern.length := rfl

theorem fits_ofChars_iff {k : Nat} {c : Char} :
    (ofChars pattern).fits k c = true ↔ Suits pattern k c := by
  have same : (ofChars pattern).chars[k]? = pattern[k]? := List.getElem?_toArray
  rw [fits, same, Suits]
  cases pattern[k]? <;> simp

theorem carryOverOf_ofChars {i : Nat} (h : i < pattern.length) :
    (ofChars pattern).carryOverOf i = carryOverAt pattern (carryOvers pattern i) i := by
  rw [← getD_carryOvers h, carryOverOf, ofChars]
  simp [Array.getD_eq_getD_getElem?, List.getD_eq_getElem?_getD]

theorem neg_one_le_carryOverOf (pattern : List Char) (i : Nat) :
    -1 ≤ (ofChars pattern).carryOverOf i := by
  have above := neg_one_le_carryOvers pattern pattern.length i
  simpa [carryOverOf, ofChars, Array.getD_eq_getD_getElem?, List.getD_eq_getElem?_getD] using above

theorem isLiteral_iff :
    isLiteral pattern = true ↔ ∀ c ∈ pattern, Pattern.isStructural c = false := by
  simp [isLiteral]

/-- The patterns that can be searched as literals. -/
theorem ofPattern_eq_ok_iff {f : Factor} : ofPattern pattern = .ok f ↔
    pattern ≠ [] ∧ isLiteral pattern = true ∧ (∀ c ∈ pattern, c.toNat < alphabetSize) ∧
      f = ofChars pattern := by
  have alphabet : (pattern.find? fun c => (byteOf? c).isNone) = none ↔
      ∀ c ∈ pattern, c.toNat < alphabetSize := by
    simp only [List.find?_eq_none, Option.isNone_iff_eq_none, byteOf?_eq_none_iff, Nat.not_le]
  rw [← alphabet, ofPattern]
  split
  · next empty => simp [List.isEmpty_iff.1 empty]
  · next nonempty =>
    rw [List.isEmpty_iff] at nonempty
    cases literal : isLiteral pattern with
    | false => simp
    | true =>
      cases outside : pattern.find? fun c => (byteOf? c).isNone with
      | none => simp [nonempty, eq_comm]
      | some c => simp

end Factor

namespace Window

open Factor (Suits FitsAt IsBorder)

variable {pattern text : List Char} {w next : Window}

/-- What a step comes to, by the character of the line where the window is. -/
inductive Effect (pattern text : List Char) (w : Window) : Outcome → Prop where
  | ended : text[w.input]? = none → Effect pattern text w .ended
  | failed {c} : text[w.input]? = some c → alphabetSize ≤ c.toNat →
      Effect pattern text w (.failed (.characterOutOfRange c))
  | found {c} : text[w.input]? = some c → c.toNat < alphabetSize → Suits pattern w.factor c →
      w.factor + 1 = pattern.length → Effect pattern text w .found
  | advanced {c} : text[w.input]? = some c → c.toNat < alphabetSize → Suits pattern w.factor c →
      w.factor + 1 ≠ pattern.length → Effect pattern text w (.moved w.advance)
  | fellBack {c} : text[w.input]? = some c → c.toNat < alphabetSize → ¬Suits pattern w.factor c →
      Effect pattern text w (.moved (w.fallBack ((Factor.ofChars pattern).carryOverOf w.factor)))

theorem effect_step (pattern text : List Char) (w : Window) :
    Effect pattern text w (step (.ofChars pattern) text.toArray w) := by
  unfold step
  rw [List.getElem?_toArray, Factor.size_ofChars]
  cases place : text[w.input]? with
  | none => exact .ended place
  | some c =>
    simp only
    split
    · next value =>
      rw [Option.isNone_iff_eq_none, byteOf?_eq_none_iff] at value
      exact .failed place value
    · next value =>
      have inside : c.toNat < alphabetSize := by
        rw [Option.isNone_iff_eq_none, byteOf?_eq_none_iff] at value
        omega
      split
      · next fits =>
        split
        · next last => exact .found place inside (Factor.fits_ofChars_iff.1 fits) last
        · next more => exact .advanced place inside (Factor.fits_ofChars_iff.1 fits) more
      · next differs =>
        exact .fellBack place inside fun suits => differs (Factor.fits_ofChars_iff.2 suits)

/-- What holds of each window in a search. -/
structure Laid (pattern text : List Char) (w : Window) : Prop where
  inside : w.factor ≤ w.input
  unfinished : w.factor < pattern.length
  reached : w.input ≤ alphabetEnd text
  compared : ∀ k < w.factor, ∃ c, text[w.alignment + k]? = some c ∧ Suits pattern k c
  unskipped : ∀ i, FitsAt pattern text i → w.alignment ≤ i

theorem Laid.start (nonempty : pattern ≠ []) : Laid pattern text ⟨0, 0⟩ :=
  ⟨Nat.le_refl 0, List.length_pos_iff.2 nonempty, Nat.zero_le _, by simp, fun _ _ => Nat.zero_le _⟩

/-- The window is on the last place before the alphabet's end at most. -/
theorem Laid.input_lt (h : Laid pattern text w) {c : Char} (place : text[w.input]? = some c)
    (inside : c.toNat < alphabetSize) : w.input < alphabetEnd text := by
  have reached := h.reached
  by_cases last : w.input = alphabetEnd text
  · have outside := le_toNat_of_getElem?_alphabetEnd (last ▸ place)
    omega
  · omega

theorem Laid.advance (h : Laid pattern text w) {c : Char} (place : text[w.input]? = some c)
    (inside : c.toNat < alphabetSize) (suits : Suits pattern w.factor c)
    (more : w.factor + 1 ≠ pattern.length) : Laid pattern text w.advance := by
  have lt := h.input_lt place inside
  have le := h.inside
  have unfinished := h.unfinished
  have same : w.advance.alignment = w.alignment := by simp [alignment, Window.advance]
  refine ⟨Nat.succ_le_succ le, ?_, lt, fun k hk => ?_, fun i fits => ?_⟩
  · simp only [Window.advance]
    omega
  · rw [same]
    by_cases last : k = w.factor
    · subst last
      have here : w.alignment + w.factor = w.input := Nat.sub_add_cancel le
      exact ⟨c, by rw [here, place], suits⟩
    · simp only [Window.advance] at hk
      exact h.compared k (by omega)
  · rw [same]
    exact h.unskipped i fits

/-- A place further right where the literal fits gives a border of what has been compared. -/
theorem Laid.isBorder (h : Laid pattern text w) {i : Nat} (fits : FitsAt pattern text i)
    (right : w.alignment < i) (near : i ≤ w.input) : IsBorder pattern w.factor (w.input - i) := by
  have le := h.inside
  have unfinished := h.unfinished
  have start : w.alignment = w.input - w.factor := rfl
  refine ⟨by omega, fun k lt a b ha hb => ?_⟩
  obtain ⟨c, place, first⟩ := h.compared (w.factor - (w.input - i) + k) (by omega)
  have same : w.alignment + (w.factor - (w.input - i) + k) = i + k := by omega
  rw [same] at place
  exact Factor.compatible_of_suits ha hb first (fits.suits (by omega) place)

/-- A fall-back passes over no place where the literal fits. -/
theorem Laid.alignment_fallBack_le (h : Laid pattern text w) {c : Char}
    (place : text[w.input]? = some c) (differs : ¬Suits pattern w.factor c) {i : Nat}
    (fits : FitsAt pattern text i) :
    (w.fallBack ((Factor.ofChars pattern).carryOverOf w.factor)).alignment ≤ i := by
  have le := h.inside
  have unfinished := h.unfinished
  have lower := h.unskipped i fits
  have start : w.alignment = w.input - w.factor := rfl
  have least := Factor.neg_one_le_carryOverOf pattern w.factor
  simp only [alignment, fallBack, Nat.sub_zero]
  by_cases beyond : w.input < i
  · omega
  · by_cases here : i = w.alignment
    · -- The literal does not fit where it is laid.
      have same : i + w.factor = w.input := by omega
      exact absurd (fits.suits unfinished (by rw [same, place])) differs
    · have border := h.isBorder fits (by omega) (by omega)
      have same : i + (w.input - i) = w.input := by omega
      have next := fits.suits (k := w.input - i) (by omega) (by rw [same, place])
      have longest := border.le_carryOverAt unfinished next differs
      rw [← Factor.carryOverOf_ofChars unfinished] at longest
      omega

theorem Laid.fallBack (h : Laid pattern text w) {c : Char} (place : text[w.input]? = some c)
    (inside : c.toNat < alphabetSize) (differs : ¬Suits pattern w.factor c) :
    Laid pattern text (w.fallBack ((Factor.ofChars pattern).carryOverOf w.factor)) := by
  have lt := h.input_lt place inside
  have unfinished := h.unfinished
  have least := Factor.neg_one_le_carryOverOf pattern w.factor
  refine ⟨Nat.zero_le _, by simp only [Window.fallBack]; omega, ?_, ?_, ?_⟩
  · simp only [Window.fallBack]
    omega
  · intro k hk
    exact absurd hk (Nat.not_lt_zero k)
  · intro i fits
    exact h.alignment_fallBack_le place differs fits

theorem Laid.step (h : Laid pattern text w)
    (moved : Window.step (.ofChars pattern) text.toArray w = .moved next) :
    Laid pattern text next := by
  have effect := effect_step pattern text w
  rw [moved] at effect
  cases effect with
  | advanced place inside suits more => exact h.advance place inside suits more
  | fellBack place inside differs => exact h.fallBack place inside differs

/-- The literal fits nowhere if it does not fit where it is laid and the line can be read no
further. -/
theorem Laid.not_fitsAt (h : Laid pattern text w) (last : alphabetEnd text ≤ w.input) (i : Nat) :
    ¬FitsAt pattern text i := by
  intro fits
  have lower := h.unskipped i fits
  have upper := fits.1
  have unfinished := h.unfinished
  have start : w.alignment = w.input - w.factor := rfl
  omega

theorem Laid.fitsAt (h : Laid pattern text w) {c : Char} (place : text[w.input]? = some c)
    (inside : c.toNat < alphabetSize) (suits : Suits pattern w.factor c)
    (last : w.factor + 1 = pattern.length) : FitsAt pattern text w.alignment := by
  have lt := h.input_lt place inside
  have here : w.alignment + w.factor = w.input := Nat.sub_add_cancel h.inside
  refine ⟨by omega, fun k hk => ?_⟩
  by_cases final : k = w.factor
  · subst final
    rw [here, place]
    exact suits
  · obtain ⟨d, before, fits⟩ := h.compared k (by omega)
    rw [before]
    exact fits

theorem Laid.alphabetEnd_eq (h : Laid pattern text w)
    (stops : ∀ c, text[w.input]? = some c → alphabetSize ≤ c.toNat) :
    w.input = alphabetEnd text := by
  have reached := h.reached
  by_cases before : w.input < alphabetEnd text
  · have le := alphabetEnd_le text
    have place := List.getElem?_eq_getElem (l := text) (i := w.input) (by omega)
    have inside := toNat_lt_of_lt_alphabetEnd place before
    have outside := stops _ place
    omega
  · omega

/-- From a window that is laid right, the search tells whether the literal fits somewhere. -/
theorem Laid.settles {inside : w.factor ≤ w.input} (h : Laid pattern text w) :
    Settles (scan (.ofChars pattern) text.toArray w inside) text (∃ i, FitsAt pattern text i) := by
  fun_induction scan (Factor.ofChars pattern) text.toArray w inside with
  | case1 w _ outcome =>
    have effect := effect_step pattern text w
    rw [outcome] at effect
    cases effect with
    | found place inside suits last =>
      have fits := h.fitsAt place inside suits last
      exact ⟨fun _ => rfl, fun none => absurd ⟨_, fits⟩ none⟩
  | case2 w _ outcome =>
    have effect := effect_step pattern text w
    rw [outcome] at effect
    cases effect with
    | ended place =>
      have last := h.alphabetEnd_eq (by simp [place])
      refine ⟨fun ⟨i, fits⟩ => absurd fits (h.not_fitsAt (Nat.le_of_eq last.symm) i), fun _ => ?_⟩
      rw [unmatched, ← last, place]
  | case3 w _ e outcome =>
    have effect := effect_step pattern text w
    rw [outcome] at effect
    cases effect with
    | failed place outside =>
      have last := h.alphabetEnd_eq (by simpa [place] using outside)
      refine ⟨fun ⟨i, fits⟩ => absurd fits (h.not_fitsAt (Nat.le_of_eq last.symm) i), fun _ => ?_⟩
      rw [unmatched, ← last, place]
  | case4 w _ next outcome ih => exact ih (h.step outcome)

/-- The windows that a search for a literal comes to. -/
inductive Visited (f : Factor) (text : Array Char) : Window → Prop where
  | start : Visited f text ⟨0, 0⟩
  | move {w next : Window} : Visited f text w → step f text w = .moved next → Visited f text next

theorem laid_of_visited (nonempty : pattern ≠ [])
    (h : Visited (.ofChars pattern) text.toArray w) : Laid pattern text w := by
  induction h with
  | start => exact .start nonempty
  | move _ moved ih => exact ih.step moved

end Window

theorem Factor.settles_search {pattern : List Char} (nonempty : pattern ≠ []) (text : List Char) :
    Settles ((ofChars pattern).search text) text (∃ i, FitsAt pattern text i) :=
  (Window.Laid.start nonempty).settles

/-- The search for a literal finds it exactly if it fits the line somewhere before the first
character outside the alphabet. If not, that character is the error, and there is none if the line
does not leave the alphabet. No window of the search is laid on the right of a place where the
literal fits. -/
theorem Factor.search_iff_fitsAt {pattern : List Char} {f : Factor} (text : List Char)
    (made : ofPattern pattern = .ok f) :
    ((∃ i, FitsAt pattern text i) → f.search text = .ok true) ∧
      (¬(∃ i, FitsAt pattern text i) →
        (∀ c, text[alphabetEnd text]? = some c → f.search text = .error (.characterOutOfRange c)) ∧
        (alphabetEnd text = text.length → f.search text = .ok false)) ∧
      ∀ w, Window.Visited f text.toArray w → ∀ i, FitsAt pattern text i → w.alignment ≤ i := by
  obtain ⟨nonempty, -, -, rfl⟩ := ofPattern_eq_ok_iff.1 made
  have settles := settles_search nonempty text
  refine ⟨settles.found, fun unfound => ⟨fun c place => ?_, fun ends => ?_⟩, fun w visited => ?_⟩
  · have answer := settles.unfound unfound
    rw [unmatched, place] at answer
    exact answer
  · have answer := settles.unfound unfound
    rw [unmatched, ends, List.getElem?_eq_none (Nat.le_refl _)] at answer
    exact answer
  · exact (Window.laid_of_visited nonempty visited).unskipped

theorem Factor.search_overlapping :
    ofPattern ['a', '.', 'a', 'b'] = .ok (ofChars ['a', '.', 'a', 'b']) ∧
      (ofChars ['a', '.', 'a', 'b']).search ['a', 'a', 'x', 'a', 'b', '€'] = .ok true := by
  have made : ofPattern ['a', '.', 'a', 'b'] = .ok (ofChars ['a', '.', 'a', 'b']) := rfl
  have fits : FitsAt ['a', '.', 'a', 'b'] ['a', 'a', 'x', 'a', 'b', '€'] 1 :=
    ⟨by decide, by decide⟩
  exact ⟨made, (search_iff_fitsAt _ made).1 ⟨1, fits⟩⟩

end LineGrep
