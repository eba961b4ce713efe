import LineGrep.Proofs.Search.CarryOver

/-!
How a search for a literal comes to its end. The place of the line that is compared may go back, but
the place where the literal is laid never does: a match leaves it and a mismatch moves it right. So
the number of places that the literal has been laid at, counted with the characters compared at the
last of them, grows by each step. Main statement: each window of a search is exact, and the search
ends within as many steps as the literal and the line, with its end, have pairs of places.
-/

namespace LineGrep

namespace Window

open Factor (Suits)

/-- The answer of a search that a step ends. -/
def Outcome.answer? : Outcome → Option (Except AutomatonError Bool)
  | .found => some (.ok true)
  | .ended => some (.ok false)
  | .failed e => some (.error e)
  | .moved _ => none

theorem Outcome.answer?_eq_none_iff {outcome : Outcome} :
    outcome.answer? = none ↔ ∃ w, outcome = .moved w := by
  cases outcome <;> simp [answer?]

/-- What a search has come to after a number of steps, of which those after its end change
nothing. -/
def outcomeAfter (f : Factor) (text : Array Char) : Nat → Outcome
  | 0 => .moved ⟨0, 0⟩
  | n + 1 =>
    match outcomeAfter f text n with
    | .moved w => step f text w
    | last => last

/-- A window lies within the literal and the line, and so does the next one: no place is computed
that is less than zero or beyond the end of the line. A match leaves the literal where it is laid,
and a mismatch lays it further right. -/
structure Exact (f : Factor) (text : List Char) (w : Window) : Prop where
  unfinished : w.factor < f.size
  inside : w.factor ≤ w.input
  reached : w.input ≤ text.length
  matched : ∀ c, text[w.input]? = some c → c.toNat < alphabetSize → f.fits w.factor c = true →
    (step f text.toArray w = .found ∨ step f text.toArray w = .moved w.advance) ∧
      w.advance.alignment = w.alignment
  mismatched : ∀ c, text[w.input]? = some c → c.toNat < alphabetSize →
    f.fits w.factor c = false → ∃ carryOver, f.carryOver[w.factor]? = some carryOver ∧
      -1 ≤ carryOver ∧ carryOver < w.factor ∧
      step f text.toArray w = .moved (w.fallBack carryOver) ∧
      ((w.fallBack carryOver).input : Int) = w.input - carryOver ∧
      (w.fallBack carryOver).input ≤ text.length ∧
      w.alignment < (w.fallBack carryOver).alignment

variable {pattern text : List Char} {w next : Window}

theorem alignment_advance (w : Window) : w.advance.alignment = w.alignment := by
  simp [alignment, advance]

/-- What a step comes to where the character of the line lies in the alphabet. -/
theorem Effect.of_inside {outcome : Outcome} (effect : Effect pattern text w outcome) {c : Char}
    (place : text[w.input]? = some c) (inside : c.toNat < alphabetSize) :
    Suits pattern w.factor c ∧ (outcome = .found ∨ outcome = .moved w.advance) ∨
      ¬Suits pattern w.factor c ∧
        outcome = .moved (w.fallBack ((Factor.ofChars pattern).carryOverOf w.factor)) := by
  cases effect with
  | ended none => simp [none] at place
  | failed place' outside =>
    obtain rfl := Option.some.inj (place.symm.trans place')
    omega
  | found place' _ suits _ =>
    obtain rfl := Option.some.inj (place.symm.trans place')
    exact Or.inl ⟨suits, Or.inl rfl⟩
  | advanced place' _ suits _ =>
    obtain rfl := Option.some.inj (place.symm.trans place')
    exact Or.inl ⟨suits, Or.inr rfl⟩
  | fellBack place' _ differs =>
    obtain rfl := Option.some.inj (place.symm.trans place')
    exact Or.inr ⟨differs, rfl⟩

/-- A carry-over that is less than the place is subtracted without loss. -/
theorem input_fallBack {carryOver : Int} (inside : w.factor ≤ w.input)
    (below : carryOver < w.factor) : ((w.fallBack carryOver).input : Int) = w.input - carryOver := by
  simp only [fallBack]
  omega

theorem Laid.toExact (h : Laid pattern text w) : Exact (.ofChars pattern) text w where
  unfinished := h.unfinished
  inside := h.inside
  reached := Nat.le_trans h.reached (alphabetEnd_le text)
  matched c place inside fits := by
    have suits := Factor.fits_ofChars_iff.1 fits
    have outcome := (effect_step pattern text w).of_inside place inside
    exact ⟨(outcome.resolve_right fun fails => fails.1 suits).2, alignment_advance w⟩
  mismatched c place inside fails := by
    have differs : ¬Suits pattern w.factor c := by
      rw [← Factor.fits_ofChars_iff, fails]
      exact Bool.false_ne_true
    have outcome := (effect_step pattern text w).of_inside place inside
    have moved := (outcome.resolve_left fun fits => differs fits.1).2
    have entry := Factor.carryOver_ofChars_eq_some_iff.2
      ⟨h.unfinished, Factor.carryOverOf_ofChars h.unfinished⟩
    have below := (Factor.ofChars pattern).carryOverOf_lt w.factor
    have later := (h.fallBack place inside differs).reached
    exact ⟨_, entry, Factor.neg_one_le_carryOverOf pattern w.factor, below, moved,
      input_fallBack h.inside below, Nat.le_trans later (alphabetEnd_le text),
      alignment_lt_fallBack h.inside⟩

/-- How far a search has come: all places of the literal count for each place where it was laid. -/
def progress (f : Factor) (w : Window) : Nat :=
  w.alignment * f.size + w.factor

/-- Each step that goes on makes progress. -/
theorem Laid.progress_lt (h : Laid pattern text w)
    (moved : Window.step (.ofChars pattern) text.toArray w = .moved next) :
    progress (.ofChars pattern) w < progress (.ofChars pattern) next := by
  rw [progress, progress]
  rcases (step_moved moved).2 with rfl | rfl
  · rw [alignment_advance]
    exact Nat.lt_succ_self _
  · -- What has been compared at the old place is less than the whole literal.
    have unfinished : w.factor < (Factor.ofChars pattern).size := h.unfinished
    have further := alignment_lt_fallBack (f := .ofChars pattern) h.inside
    have round := Nat.mul_le_mul_right (Factor.ofChars pattern).size (Nat.succ_le_of_lt further)
    rw [Nat.succ_mul] at round
    omega

theorem Laid.progress_lt_bound (h : Laid pattern text w) :
    progress (.ofChars pattern) w < (text.length + 1) * pattern.length := by
  have unfinished := h.unfinished
  have reached := Nat.le_trans h.reached (alphabetEnd_le text)
  have inside : w.alignment ≤ text.length := Nat.le_trans (Nat.sub_le _ _) reached
  have rounds := Nat.mul_le_mul_right pattern.length inside
  rw [progress, Factor.size_ofChars, Nat.succ_mul]
  omega

/-- A search that goes on has made as much progress as steps. -/
theorem visited_of_outcomeAfter (nonempty : pattern ≠ []) {n : Nat}
    (h : outcomeAfter (.ofChars pattern) text.toArray n = .moved w) :
    Visited (.ofChars pattern) text.toArray w ∧ n ≤ progress (.ofChars pattern) w := by
  induction n generalizing w with
  | zero =>
    cases h
    exact ⟨.start, Nat.zero_le _⟩
  | succ n ih =>
    rw [outcomeAfter] at h
    split at h
    · next before earlier =>
      obtain ⟨visited, le⟩ := ih earlier
      have lt := (laid_of_visited nonempty visited).progress_lt h
      exact ⟨.move visited h, by omega⟩
    · next stopped => exact absurd h (stopped w)

theorem scan_of_moved {f : Factor} {text : Array Char} {inside : w.factor ≤ w.input}
    (h : step f text w = .moved next) :
    scan f text w inside = scan f text next (step_inside h inside) := by
  rw [scan]
  split
  · next found => cases h.symm.trans found
  · next ended => cases h.symm.trans ended
  · next failed => cases h.symm.trans failed
  · next other => cases h.symm.trans other; rfl

theorem scan_of_answer {f : Factor} {text : Array Char} {inside : w.factor ≤ w.input}
    {answer : Except AutomatonError Bool} (h : (step f text w).answer? = some answer) :
    scan f text w inside = answer := by
  rw [scan]
  split
  · next found => rw [found] at h; exact Option.some.inj h
  · next ended => rw [ended] at h; exact Option.some.inj h
  · next failed => rw [failed] at h; exact Option.some.inj h
  · next moved => rw [moved] at h; cases h

/-- A search does what its steps do: as long as they go on, the rest of the search is that from the
window, and the answer of the last one is that of the search. -/
theorem search_outcomeAfter (f : Factor) (text : List Char) (n : Nat) :
    (∀ w, outcomeAfter f text.toArray n = .moved w →
      ∃ inside, scan f text.toArray w inside = f.search text) ∧
      ∀ answer, (outcomeAfter f text.toArray n).answer? = some answer → f.search text = answer := by
  induction n with
  | zero =>
    refine ⟨fun w start => ?_, fun answer start => by simp [outcomeAfter, Outcome.answer?] at start⟩
    cases start
    exact ⟨Nat.le_refl 0, rfl⟩
  | succ n ih =>
    rw [outcomeAfter]
    split
    · next before earlier =>
      obtain ⟨inside, same⟩ := ih.1 before earlier
      exact ⟨fun w moved => ⟨step_inside moved inside, (scan_of_moved moved).symm.trans same⟩,
        fun answer last => same.symm.trans (scan_of_answer last)⟩
    · exact ih

end Window

/-- Each window that a search for a literal comes to is exact, and the search ends: after as many
steps as the literal has places for each place of the line and its end, no step goes on, and the
last one has given the answer of the search. -/
theorem Factor.search_ends {pattern : List Char} {f : Factor} (made : ofPattern pattern = .ok f)
    (text : List Char) :
    (∀ w, Window.Visited f text.toArray w → Window.Exact f text w) ∧
      (Window.outcomeAfter f text.toArray ((text.length + 1) * f.size)).answer? =
        some (f.search text) := by
  obtain ⟨nonempty, -, -, rfl⟩ := ofPattern_eq_ok_iff.1 made
  refine ⟨fun w visited => (Window.laid_of_visited nonempty visited).toExact, ?_⟩
  cases last : (Window.outcomeAfter (ofChars pattern) text.toArray
      ((text.length + 1) * (ofChars pattern).size)).answer? with
  | some answer => rw [(Window.search_outcomeAfter (ofChars pattern) text _).2 answer last]
  | none =>
    obtain ⟨w, moved⟩ := Window.Outcome.answer?_eq_none_iff.1 last
    obtain ⟨visited, le⟩ := Window.visited_of_outcomeAfter nonempty moved
    have lt := (Window.laid_of_visited nonempty visited).progress_lt_bound
    rw [size_ofChars] at le
    omega

theorem Factor.search_goes_back :
    ofPattern "aab".toList = .ok (ofChars "aab".toList) ∧
      Window.Visited (ofChars "aab".toList) "aaab".toList.toArray ⟨2, 2⟩ ∧
      Window.step (ofChars "aab".toList) "aaab".toList.toArray ⟨2, 2⟩ = .moved ⟨1, 0⟩ ∧
      Window.Exact (ofChars "aab".toList) "aaab".toList ⟨2, 2⟩ ∧
      (Window.outcomeAfter (ofChars "aab".toList) "aaab".toList.toArray 15).answer? =
        some ((ofChars "aab".toList).search "aaab".toList) := by
  have made : ofPattern "aab".toList = .ok (ofChars "aab".toList) := rfl
  have second : Window.Visited (ofChars "aab".toList) "aaab".toList.toArray ⟨1, 1⟩ :=
    .move .start (by decide)
  have visited : Window.Visited (ofChars "aab".toList) "aaab".toList.toArray ⟨2, 2⟩ :=
    .move second (by decide)
  have ends := search_ends made "aaab".toList
  exact ⟨made, visited, by decide, ends.1 _ visited, ends.2⟩

end LineGrep
