import LineGrep.Proofs.Automaton.Session
import LineGrep.Search.Unanchored

/-!
The search of a line as the attempts from its places. An attempt reads a word as far as it can be
continued and stops at the first place where it is a word of the language. The search passes over
the places from which nothing is found and nothing is left open. Main statement: the search stops
with the attempt from the first place that is not passed over, and so at the end of the leftmost
match and there at the shortest.
-/

namespace LineGrep

namespace Regex

variable {t : Regex} {u v w : List UInt8}

theorem Viable.of_matches (h : t.Matches (u ++ v)) : t.Viable u :=
  ⟨v, h⟩

theorem Viable.of_append (h : t.Viable (u ++ v)) : t.Viable u := by
  obtain ⟨rest, word⟩ := h
  exact ⟨v ++ rest, by rwa [← List.append_assoc]⟩

/-- No word of the language starts with one word and goes on with a beginning of another. -/
def Unmatched (t : Regex) (v w : List UInt8) : Prop :=
  ∀ u, u <+: w → ¬t.Matches (v ++ u)

/-- A beginning of a word completes another word to one of the language, and is the shortest that
does. -/
structure Completes (t : Regex) (v w u : List UInt8) : Prop where
  front : u <+: w
  word : t.Matches (v ++ u)
  shortest : ∀ u', u' <+: w → t.Matches (v ++ u') → u.length ≤ u'.length

theorem completes_nil (h : t.Matches v) (w : List UInt8) : t.Completes v w [] :=
  ⟨List.nil_prefix, by rwa [List.append_nil], fun _ _ _ => Nat.zero_le _⟩

theorem unmatched_nil_iff : t.Unmatched v [] ↔ ¬t.Matches v := by
  simp [Unmatched]

theorem Unmatched.cons {b : UInt8} (here : ¬t.Matches v) (h : t.Unmatched (v ++ [b]) w) :
    t.Unmatched v (b :: w) := by
  intro u front word
  rcases List.prefix_cons_iff.1 front with rfl | ⟨back, rfl, short⟩
  · exact here (by rwa [List.append_nil] at word)
  · exact h back short (by rwa [List.append_assoc])

theorem Completes.cons {b : UInt8} (here : ¬t.Matches v) (h : t.Completes (v ++ [b]) w u) :
    t.Completes v (b :: w) (b :: u) := by
  have word := h.word
  rw [List.append_assoc] at word
  refine ⟨(List.prefix_cons_inj b).2 h.front, word, fun u' front word' => ?_⟩
  rcases List.prefix_cons_iff.1 front with rfl | ⟨back, rfl, short⟩
  · exact absurd (by rwa [List.append_nil] at word') here
  · exact Nat.succ_le_succ (h.shortest back short (by rwa [List.append_assoc]))

theorem unmatched_of_not_viable {b : UInt8} (here : ¬t.Matches v) (blocked : ¬t.Viable (v ++ [b])) :
    t.Unmatched v (b :: w) :=
  Unmatched.cons here fun _ _ word => blocked (.of_matches word)

end Regex

namespace Cursor

/-- Moves over a text, if each of its characters can be consumed. -/
def read (c : Cursor) (text : List Char) : Except AutomatonError Cursor :=
  text.foldlM move c

/-- What an attempt comes to that goes on from a word, over another word and then to the end of the
line or to a character outside the alphabet. -/
inductive AttemptsTo (t : Regex) (c : Cursor) (v w : List UInt8) (tail : List Char) :
    Except AutomatonError Bool × Cursor → Prop where
  | accepted {u next} : t.Completes v w u → c.read (u.map charOf) = .ok next →
      next.HasRead t (v ++ u) → AttemptsTo t c v w tail (.ok true, next)
  | blocked {stop} : t.Unmatched v w → (tail ≠ [] → ¬t.Viable (v ++ w)) →
      AttemptsTo t c v w tail (.ok false, stop)
  | outside {ch rest stop} : t.Unmatched v w → tail = ch :: rest → t.Viable (v ++ w) →
      c.read (w.map charOf) = .ok stop → stop.HasRead t (v ++ w) →
      AttemptsTo t c v w tail (.error (.characterOutOfRange ch), stop)

/-- The attempt from a place of a line finds nothing, and does not come to a character outside the
alphabet. The line is the text of a word and then ends or leaves the alphabet. -/
structure PassesOver (t : Regex) (w : List UInt8) (tail : List Char) (k : Nat) : Prop where
  unmatched : t.Unmatched [] (w.drop k)
  stuck : tail ≠ [] → ¬t.Viable (w.drop k)

/-- Where the search stops in such a line: with a shortest word of the language at the first place
where one starts, at the end of a line in which none starts, or at the character outside the
alphabet, in the attempt from the first place from which the line could go on. -/
inductive StopsAt (t : Regex) (w : List UInt8) (tail : List Char) :
    Except AutomatonError Bool × Cursor → Prop where
  | found {i u next} : i ≤ w.length → (∀ k < i, PassesOver t w tail k) →
      t.Completes [] (w.drop i) u → (start (Dfa.ofNfa (.ofRegex t))).read (u.map charOf) = .ok next →
      next.HasRead t u → StopsAt t w tail (.ok true, next)
  | unfound : tail = [] → (∀ k ≤ w.length, PassesOver t w tail k) →
      StopsAt t w tail (.ok false, start (Dfa.ofNfa (.ofRegex t)))
  | outside {s ch rest stop} : tail = ch :: rest → s ≤ w.length →
      (∀ k < s, PassesOver t w tail k) → t.Viable (w.drop s) → t.Unmatched [] (w.drop s) →
      (start (Dfa.ofNfa (.ofRegex t))).read ((w.drop s).map charOf) = .ok stop →
      stop.HasRead t (w.drop s) → StopsAt t w tail (.error (.characterOutOfRange ch), stop)

variable {t : Regex} {c next : Cursor} {v w : List UInt8} {tail : List Char}
  {outcome : Except AutomatonError Bool × Cursor}

theorem read_nil (c : Cursor) : c.read [] = .ok c := rfl

theorem read_cons {ch : Char} {text : List Char} (moved : c.move ch = .ok next) :
    c.read (ch :: text) = next.read text := by
  rw [read, List.foldlM_cons, moved]
  rfl

/-- An attempt that moves goes on to what the attempt after the move comes to. -/
theorem AttemptsTo.cons {b : UInt8}
    (moved : c.move (charOf b) = .ok next) (here : ¬t.Matches v)
    (h : AttemptsTo t next (v ++ [b]) w tail outcome) : AttemptsTo t c v (b :: w) tail outcome := by
  have joined (u : List UInt8) : v ++ [b] ++ u = v ++ b :: u := by simp
  cases h with
  | accepted completes read hasRead =>
    refine .accepted (completes.cons here) ?_ (joined _ ▸ hasRead)
    rw [List.map_cons, read_cons moved, read]
  | blocked unmatched stuck => exact .blocked (unmatched.cons here) (joined w ▸ stuck)
  | outside unmatched same viable read hasRead =>
    refine .outside (unmatched.cons here) same (joined w ▸ viable) ?_ (joined w ▸ hasRead)
    rw [List.map_cons, read_cons moved, read]

/-- The attempt from a place of the line to which the cursor has read a word that is none of the
language. -/
theorem HasRead.attemptsTo (h : c.HasRead t v) (here : ¬t.Matches v) (viable : t.Viable v)
    (outside : ∀ ch ∈ tail.head?, byteOf? ch = none) (w : List UInt8) :
    AttemptsTo t c v w tail (c.attempt (w.map charOf ++ tail)) := by
  induction w generalizing c v with
  | nil =>
    have unmatched := Regex.unmatched_nil_iff.2 here
    rw [List.map_nil, List.nil_append]
    cases tail with
    | nil => exact .blocked unmatched (absurd rfl)
    | cons ch rest =>
      have failed : c.move ch = .error (.characterOutOfRange ch) := by
        simp [move, outside ch rfl]
      rw [attempt, failed]
      have whole := (List.append_nil v).symm
      exact .outside unmatched rfl (whole ▸ viable) (read_nil c) (whole ▸ h)
  | cons b w ih =>
    rw [List.map_cons, List.cons_append, attempt]
    by_cases goes : t.Viable (v ++ [b])
    · obtain ⟨next, moved, hasRead⟩ := h.move_viable goes
      rw [moved]
      by_cases word : t.Matches (v ++ [b])
      · simp only [hasRead.isAccepting_iff.2 word, if_true]
        refine .cons moved here (.accepted (Regex.completes_nil word w) (read_nil next) ?_)
        rwa [List.append_nil]
      · have unaccepted : next.isAccepting = false := by
          rwa [← Bool.not_eq_true, hasRead.isAccepting_iff]
        simp only [unaccepted, Bool.false_eq_true, if_false]
        exact .cons moved here (ih hasRead word goes)
    · rw [h.move_blocked goes]
      refine .blocked (Regex.unmatched_of_not_viable here goes) fun _ viable => goes ?_
      rw [List.append_cons] at viable
      exact viable.of_append

theorem attemptsTo_searchHere (kept : c.dfa = Dfa.ofNfa (.ofRegex t))
    (outside : ∀ ch ∈ tail.head?, byteOf? ch = none) (w : List UInt8) :
    AttemptsTo t (start (Dfa.ofNfa (.ofRegex t))) [] w tail
      (c.searchHere (w.map charOf ++ tail)) := by
  have back : c.reset = start (Dfa.ofNfa (.ofRegex t)) := congrArg start kept
  have hasRead := hasRead_start t
  rw [searchHere, back]
  split
  · next accepting =>
    have word := hasRead.isAccepting_iff.1 accepting
    exact .accepted (Regex.completes_nil word w) (read_nil _) hasRead
  · next rejecting =>
    rw [hasRead.isAccepting_iff] at rejecting
    exact hasRead.attemptsTo rejecting t.viable_nil outside w

/-- An attempt that ends the search. -/
theorem AttemptsTo.stopsAt (h : AttemptsTo t (start (Dfa.ofNfa (.ofRegex t))) [] w tail outcome)
    (ended : outcome.1 ≠ .ok false) : StopsAt t w tail outcome := by
  have first : ∀ k < 0, PassesOver t w tail k := by
    intro k before
    omega
  cases h with
  | accepted completes read hasRead =>
    exact .found (by omega) first completes read hasRead
  | blocked => exact absurd rfl ended
  | outside unmatched same viable read hasRead =>
    exact .outside same (by omega) first viable unmatched read hasRead

/-- An attempt that does not end the search. -/
theorem AttemptsTo.passesOver (h : AttemptsTo t c [] w tail outcome)
    (refused : outcome.1 = .ok false) : PassesOver t w tail 0 := by
  cases h with
  | accepted => cases refused
  | blocked unmatched stuck => exact ⟨unmatched, stuck⟩
  | outside => cases refused

theorem search_eq_searchHere {text : List Char} (ended : (c.searchHere text).1 ≠ .ok false) :
    c.search text = c.searchHere text := by
  cases text with
  | nil => rfl
  | cons x rest =>
    rw [search]
    split
    · next same =>
      rw [same] at ended
      exact absurd rfl ended
    · rfl

theorem search_of_blocked {x : Char} {rest : List Char}
    (here : (c.searchHere (x :: rest)).1 = .ok false) :
    ∃ next : Cursor, next.dfa = c.dfa ∧ c.search (x :: rest) = next.search rest := by
  have kept := dfa_searchHere c (x :: rest)
  rw [search]
  generalize c.searchHere (x :: rest) = outcome at here kept
  obtain ⟨answer, next⟩ := outcome
  cases here
  exact ⟨next, kept, rfl⟩

/-- The places of a line are its first one and those of the rest of the line. -/
theorem PassesOver.cons {b : UInt8} {n : Nat} (here : PassesOver t (b :: w) tail 0)
    (later : ∀ k < n, PassesOver t w tail k) : ∀ k < n + 1, PassesOver t (b :: w) tail k := by
  intro k before
  cases k with
  | zero => exact here
  | succ k =>
    obtain ⟨unmatched, stuck⟩ := later k (by omega)
    exact ⟨unmatched, stuck⟩

/-- Where the search stops from the second place of a line on, if the first one is passed over. -/
theorem StopsAt.cons {b : UInt8} (here : PassesOver t (b :: w) tail 0)
    (h : StopsAt t w tail outcome) : StopsAt t (b :: w) tail outcome := by
  cases h with
  | @found i u next inside passed completes read hasRead =>
    have inside' : i + 1 ≤ (b :: w).length := by
      rw [List.length_cons]
      omega
    exact .found inside' (here.cons passed) completes read hasRead
  | unfound same passed =>
    have later : ∀ k < w.length + 1, PassesOver t w tail k :=
      fun k before => passed k (by omega)
    refine .unfound same fun k last => here.cons later k ?_
    rw [List.length_cons] at last
    omega
  | @outside s ch rest stop same inside passed viable unmatched read hasRead =>
    have inside' : s + 1 ≤ (b :: w).length := by
      rw [List.length_cons]
      omega
    exact .outside same inside' (here.cons passed) viable unmatched read hasRead

theorem search_nil_of_refused (kept : c.dfa = Dfa.ofNfa (.ofRegex t))
    (refused : (c.searchHere []).1 = .ok false) :
    c.search [] = (.ok false, start (Dfa.ofNfa (.ofRegex t))) := by
  show c.searchHere [] = _
  rw [searchHere] at refused ⊢
  split at refused
  · cases refused
  · next rejecting =>
    rw [if_neg rejecting, attempt]
    exact congrArg (Prod.mk _) (congrArg start kept)

/-- The search stops where the language of the expression says. -/
theorem stopsAt_search (kept : c.dfa = Dfa.ofNfa (.ofRegex t))
    (outside : ∀ ch ∈ tail.head?, byteOf? ch = none) (w : List UInt8) :
    StopsAt t w tail (c.search (w.map charOf ++ tail)) := by
  induction w generalizing c with
  | nil =>
    have here := attemptsTo_searchHere kept outside []
    rw [List.map_nil, List.nil_append] at here ⊢
    by_cases refused : (c.searchHere tail).1 = .ok false
    · have passed := here.passesOver refused
      obtain rfl : tail = [] := by
        by_contra more
        exact passed.stuck more t.viable_nil
      rw [search_nil_of_refused kept refused]
      refine .unfound rfl fun k last => ?_
      obtain rfl : k = 0 := Nat.le_zero.1 last
      exact passed
    · rw [search_eq_searchHere refused]
      exact here.stopsAt refused
  | cons b w ih =>
    have here := attemptsTo_searchHere kept outside (b :: w)
    rw [List.map_cons, List.cons_append] at here ⊢
    by_cases refused : (c.searchHere (charOf b :: (w.map charOf ++ tail))).1 = .ok false
    · obtain ⟨next, same, searched⟩ := search_of_blocked refused
      rw [searched]
      exact .cons (here.passesOver refused) (ih (same.trans kept))
    · rw [search_eq_searchHere refused]
      exact here.stopsAt refused

end Cursor

end LineGrep
