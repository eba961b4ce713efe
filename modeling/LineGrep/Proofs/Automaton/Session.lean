import LineGrep.Automaton.Basic
import LineGrep.Proofs.Automaton.Determinization
import LineGrep.Proofs.Automaton.Viable

/-!
A deterministic automaton in use. Its cursor stands for the word that it has consumed since it was
last put back, and each call keeps this true. Main statement: after any sequence of calls, what the
automaton answers to the next one follows from the language and from that word alone.
-/

namespace LineGrep

namespace Cursor

variable {c : Cursor} {t : Regex} {w : List UInt8}

/-- The cursor stands where the automaton of an expression is after a word. -/
def HasRead (c : Cursor) (t : Regex) (w : List UInt8) : Prop :=
  c.Shows (.ofRegex t) ((Nfa.ofRegex t).after (Nfa.ofRegex t).start w)

theorem hasRead_start (t : Regex) : (start (Dfa.ofNfa (.ofRegex t))).HasRead t [] :=
  shows_start (Nfa.rooted_ofRegex t)

theorem HasRead.reset_eq (h : c.HasRead t w) : c.reset = start (Dfa.ofNfa (.ofRegex t)) :=
  congrArg start h.dfa

theorem HasRead.isAccepting_iff (h : c.HasRead t w) : c.isAccepting = true ↔ t.Matches w := by
  rw [h.isAccepting, Nfa.contains_after_start_iff]

theorem HasRead.accepts_eq (h : c.HasRead t w) (word : List Char) :
    c.accepts word = ((Nfa.ofRegex t).accepts word, start (Dfa.ofNfa (.ofRegex t))) := by
  have rooted := Nfa.rooted_ofRegex t
  rw [accepts, h.reset_eq]
  exact (shows_start rooted).readThrough_eq rooted.bounded word

theorem step_after (t : Regex) (w : List UInt8) (b : UInt8) :
    (Nfa.ofRegex t).step ((Nfa.ofRegex t).after (Nfa.ofRegex t).start w) b =
      (Nfa.ofRegex t).after (Nfa.ofRegex t).start (w ++ [b]) := by
  rw [Nfa.after_append, Nfa.after_cons, Nfa.after_nil]

theorem input_outside (c : Cursor) {ch : Char} (outside : byteOf? ch = none) :
    c.input ch = (.error (.characterOutOfRange ch), c) := by
  simp [input, move, outside]

/-- A byte with which no word of the language goes on is refused. -/
theorem HasRead.move_blocked (h : c.HasRead t w) {b : UInt8} (blocked : ¬t.Viable (w ++ [b])) :
    c.move (charOf b) = .error .noTransition := by
  have stopped := (Nfa.isEmpty_after_iff t (w ++ [b])).2 blocked
  rw [← step_after] at stopped
  exact h.move_eq_error (Nfa.rooted_ofRegex t).bounded stopped

/-- A byte with which some word of the language goes on is consumed. -/
theorem HasRead.move_viable (h : c.HasRead t w) {b : UInt8} (viable : t.Viable (w ++ [b])) :
    ∃ next, c.move (charOf b) = .ok next ∧ next.HasRead t (w ++ [b]) := by
  have alive := (Nfa.isEmpty_after_eq_false_iff t (w ++ [b])).2 viable
  rw [← step_after] at alive
  obtain ⟨next, moved, shows'⟩ := h.move_eq_ok (Nfa.rooted_ofRegex t).bounded alive
  rw [step_after] at shows'
  exact ⟨next, moved, shows'⟩

theorem HasRead.input_blocked (h : c.HasRead t w) {b : UInt8} (blocked : ¬t.Viable (w ++ [b])) :
    c.input (charOf b) = (.error .noTransition, c) := by
  rw [input, h.move_blocked blocked]

theorem HasRead.input_viable (h : c.HasRead t w) {b : UInt8} (viable : t.Viable (w ++ [b])) :
    ∃ next, c.input (charOf b) = (.ok next.isAccepting, next) ∧ next.HasRead t (w ++ [b]) := by
  obtain ⟨next, moved, hasRead⟩ := h.move_viable viable
  exact ⟨next, by rw [input, moved], hasRead⟩

end Cursor

namespace Automaton

/-- What a user can ask of an automaton in use. -/
inductive Call where
  | input (ch : Char)
  | reset
  | accepts (word : List Char)

/-- An automaton in use, with the text that it has consumed since it was made or last put back. -/
structure Session where
  automaton : Automaton
  consumed : List Char

namespace Session

/-- The automaton of an expression, made deterministic and not used yet. -/
def begin (t : Regex) : Session :=
  ⟨(Automaton.ofRegex t).determinize.value, []⟩

/-- One call. A character counts as consumed if the automaton answers without error. -/
def call (s : Session) : Call → Session
  | .input ch =>
    let outcome := s.automaton.input ch
    match outcome.1 with
    | .ok _ => ⟨outcome.2, s.consumed ++ [ch]⟩
    | .error _ => ⟨outcome.2, s.consumed⟩
  | .reset => ⟨s.automaton.reset.2, []⟩
  | .accepts word => ⟨(s.automaton.accepts word).2, []⟩

def run (s : Session) (calls : List Call) : Session :=
  calls.foldl call s

/-- The consumed text is that of a word of bytes, and the cursor has read this word. -/
structure Follows (s : Session) (t : Regex) (w : List UInt8) (c : Cursor) : Prop where
  consumed : s.consumed = w.map charOf
  automaton : s.automaton = .deterministic c
  hasRead : c.HasRead t w

variable {s : Session} {t : Regex} {w : List UInt8} {c : Cursor}

theorem follows_begin (t : Regex) :
    (begin t).Follows t [] (.start (Dfa.ofNfa (.ofRegex t))) :=
  ⟨rfl, rfl, Cursor.hasRead_start t⟩

theorem Follows.input_eq (h : s.Follows t w c) (ch : Char) :
    s.automaton.input ch = ((c.input ch).1, .deterministic (c.input ch).2) := by
  rw [h.automaton]
  rfl

theorem Follows.accepts_eq (h : s.Follows t w c) (word : List Char) :
    s.automaton.accepts word =
      ((Nfa.ofRegex t).accepts word, .deterministic (.start (Dfa.ofNfa (.ofRegex t)))) := by
  have outcome : s.automaton.accepts word =
      ((c.accepts word).1, .deterministic (c.accepts word).2) := by
    rw [h.automaton]
    rfl
  rw [outcome, h.hasRead.accepts_eq]

/-- What a call of `input` comes to: the character lies outside the alphabet, no word goes on with
it, or it is consumed. -/
theorem Follows.input_cases (h : s.Follows t w c) (ch : Char) :
    (alphabetSize ≤ ch.toNat ∧
      s.automaton.input ch = (.error (.characterOutOfRange ch), s.automaton)) ∨
    (∃ b, ch = charOf b ∧ ¬t.Viable (w ++ [b]) ∧
      s.automaton.input ch = (.error .noTransition, s.automaton)) ∨
    ∃ b next, ch = charOf b ∧ t.Viable (w ++ [b]) ∧ next.HasRead t (w ++ [b]) ∧
      s.automaton.input ch = (.ok next.isAccepting, .deterministic next) := by
  rw [h.input_eq, h.automaton]
  cases value : byteOf? ch with
  | none =>
    refine Or.inl ⟨byteOf?_eq_none_iff.1 value, ?_⟩
    rw [c.input_outside value]
  | some b =>
    obtain rfl := byteOf?_eq_some_iff.1 value
    by_cases viable : t.Viable (w ++ [b])
    · obtain ⟨next, consumed, hasRead⟩ := h.hasRead.input_viable viable
      exact Or.inr (Or.inr ⟨b, next, rfl, viable, hasRead, by rw [consumed]⟩)
    · refine Or.inr (Or.inl ⟨b, rfl, viable, ?_⟩)
      rw [h.hasRead.input_blocked viable]

/-- Each call leaves the cursor where the consumed word leads. -/
theorem Follows.call (h : s.Follows t w c) (request : Call) :
    ∃ w' c', (s.call request).Follows t w' c' := by
  cases request with
  | input ch =>
    rcases h.input_cases ch with ⟨-, same⟩ | ⟨b, -, -, same⟩ | ⟨b, next, rfl, -, hasRead, moved⟩
    · exact ⟨w, c, by simp only [Session.call, same]; exact h⟩
    · exact ⟨w, c, by simp only [Session.call, same]; exact h⟩
    · refine ⟨w ++ [b], next, ?_⟩
      simp only [Session.call, moved]
      exact ⟨by simp [h.consumed], rfl, hasRead⟩
  | reset =>
    refine ⟨[], c.reset, rfl, by rw [Session.call, h.automaton]; rfl, ?_⟩
    rw [h.hasRead.reset_eq]
    exact Cursor.hasRead_start t
  | accepts word =>
    exact ⟨[], _, rfl, by rw [Session.call, h.accepts_eq], Cursor.hasRead_start t⟩

theorem Follows.run (h : s.Follows t w c) (calls : List Call) :
    ∃ w' c', (s.run calls).Follows t w' c' := by
  induction calls generalizing s w c with
  | nil => exact ⟨w, c, h⟩
  | cons request rest ih =>
    obtain ⟨w', c', next⟩ := h.call request
    exact ih next

theorem Follows.alphabet (h : s.Follows t w c) : ∀ ch ∈ s.consumed, ch.toNat < alphabetSize := by
  intro ch mem
  rw [h.consumed] at mem
  obtain ⟨b, -, rfl⟩ := List.mem_map.1 mem
  rw [toNat_charOf]
  exact b.toNat_lt

theorem Follows.bytesOf_consumed (h : s.Follows t w c) : bytesOf s.consumed = w := by
  rw [h.consumed, bytesOf_map_charOf]

theorem Follows.bytesOf_consumed_append (h : s.Follows t w c) (b : UInt8) :
    bytesOf (s.consumed ++ [charOf b]) = w ++ [b] := by
  have one : s.consumed ++ [charOf b] = (w ++ [b]).map charOf := by simp [h.consumed]
  rw [one, bytesOf_map_charOf]

theorem Follows.isAccepting_eq_ok_iff (h : s.Follows t w c) (b : Bool) :
    s.automaton.isAccepting = .ok b ↔ (b = true ↔ t.Matches w) := by
  have answer : s.automaton.isAccepting = .ok c.isAccepting := by
    rw [h.automaton]
    rfl
  rw [answer, ← h.hasRead.isAccepting_iff]
  cases b <;> cases c.isAccepting <;> simp

/-- Each answer to a character is given in one case only. -/
theorem Follows.input_answers (h : s.Follows t w c) (ch : Char) :
    ((s.automaton.input ch).1 = .error (.characterOutOfRange ch) ↔ alphabetSize ≤ ch.toNat) ∧
      ((s.automaton.input ch).1 = .error .noTransition ↔
        ch.toNat < alphabetSize ∧ ¬t.Viable (bytesOf (s.consumed ++ [ch]))) ∧
      ∀ b, (s.automaton.input ch).1 = .ok b ↔
        ch.toNat < alphabetSize ∧ t.Viable (bytesOf (s.consumed ++ [ch])) ∧
          (b = true ↔ t.Matches (bytesOf (s.consumed ++ [ch]))) := by
  have below (b : UInt8) : b.toNat < alphabetSize := b.toNat_lt
  rcases h.input_cases ch with
    ⟨outside, answer⟩ | ⟨b, rfl, blocked, answer⟩ | ⟨b, next, rfl, viable, hasRead, answer⟩
  · have notInside := Nat.not_lt.2 outside
    simp [answer, outside, notInside]
  · have notOutside := Nat.not_le.2 (below b)
    simp [answer, h.bytesOf_consumed_append, blocked, below b, notOutside]
  · have notOutside := Nat.not_le.2 (below b)
    simp only [answer, h.bytesOf_consumed_append, toNat_charOf, viable, below b, notOutside,
      ← hasRead.isAccepting_iff]
    refine ⟨by simp, by simp, fun found => ?_⟩
    cases found <;> cases next.isAccepting <;> simp

theorem Follows.input_of_error (h : s.Follows t w c) {ch : Char} {e : AutomatonError}
    (failed : (s.automaton.input ch).1 = .error e) : (s.automaton.input ch).2 = s.automaton := by
  rw [h.input_eq] at failed ⊢
  rw [Cursor.input_of_error failed, h.automaton]

/-- After any calls, the automaton accepts exactly if the consumed text is a word of the language.
It refuses a character outside the alphabet, and one with which no word of the language goes on from
the consumed text; it consumes every other one, and tells whether a word is complete. A refused
character changes nothing. The answer for a whole word depends on the word alone, and the cursor is
on the initial state afterwards. -/
theorem answers_after_run (t : Regex) (calls : List Call) :
    let s := (begin t).run calls
    (∀ ch ∈ s.consumed, ch.toNat < alphabetSize) ∧
      (∀ b, s.automaton.isAccepting = .ok b ↔ (b = true ↔ t.Matches (bytesOf s.consumed))) ∧
      (∀ ch, ((s.automaton.input ch).1 = .error (.characterOutOfRange ch) ↔
          alphabetSize ≤ ch.toNat) ∧
        ((s.automaton.input ch).1 = .error .noTransition ↔
          ch.toNat < alphabetSize ∧ ¬t.Viable (bytesOf (s.consumed ++ [ch]))) ∧
        (∀ b, (s.automaton.input ch).1 = .ok b ↔
          ch.toNat < alphabetSize ∧ t.Viable (bytesOf (s.consumed ++ [ch])) ∧
            (b = true ↔ t.Matches (bytesOf (s.consumed ++ [ch])))) ∧
        ∀ e, (s.automaton.input ch).1 = .error e → (s.automaton.input ch).2 = s.automaton) ∧
      ∀ word, s.automaton.accepts word =
        ((Nfa.ofRegex t).accepts word, .deterministic (.start (Dfa.ofNfa (.ofRegex t)))) := by
  intro s
  obtain ⟨w, c, follows⟩ := (follows_begin t).run calls
  refine ⟨follows.alphabet, fun b => ?_, fun ch => ?_, follows.accepts_eq⟩
  · have consumed : bytesOf s.consumed = w := follows.bytesOf_consumed
    rw [consumed]
    exact follows.isAccepting_eq_ok_iff b
  · obtain ⟨outside, blocked, read⟩ := follows.input_answers ch
    exact ⟨outside, blocked, read, fun e => follows.input_of_error⟩

end Session

end Automaton

end LineGrep
