import LineGrep.Search.Factor

/-!
Searching a line for a literal. The literal is laid against the line and compared from left to
right; where a character does not fit, it is laid further right, by as much as the carry-over
allows, and compared from its beginning. Main statement: a step that does not end the search either
keeps the literal where it is and compares one character more, or lays it further right.
-/

namespace LineGrep

/-- The next characters to be compared: a place of the line and one of the literal. -/
structure Window where
  input : Nat
  factor : Nat
  deriving DecidableEq, Repr

namespace Window

/-- The place of the line where the literal is laid. -/
def alignment (w : Window) : Nat :=
  w.input - w.factor

def advance (w : Window) : Window :=
  ⟨w.input + 1, w.factor + 1⟩

/-- Goes back by a carry-over in the line and to the beginning of the literal. -/
def fallBack (w : Window) (carryOver : Int) : Window :=
  ⟨((w.input : Int) - carryOver).toNat, 0⟩

inductive Outcome where
  | found
  | ended
  | failed (e : AutomatonError)
  | moved (w : Window)
  deriving DecidableEq, Repr

def step (f : Factor) (text : Array Char) (w : Window) : Outcome :=
  match text[w.input]? with
  | none => .ended
  | some ch =>
    if (byteOf? ch).isNone then .failed (.characterOutOfRange ch)
    else if f.fits w.factor ch then
      if w.factor + 1 = f.size then .found else .moved w.advance
    else .moved (w.fallBack (f.carryOverOf w.factor))

/-- A step that goes on compares one character more or falls back, and was not at the end. -/
theorem step_moved {f : Factor} {text : Array Char} {w next : Window}
    (h : step f text w = .moved next) :
    w.input < text.size ∧ (next = w.advance ∨ next = w.fallBack (f.carryOverOf w.factor)) := by
  unfold step at h
  split at h
  · cases h
  · next ch hch =>
    refine ⟨(Array.getElem?_eq_some_iff.1 hch).1, ?_⟩
    split at h
    · cases h
    · split at h
      · split at h
        · cases h
        · cases h; exact Or.inl rfl
      · cases h; exact Or.inr rfl

/-- A step fails only at a character outside the alphabet. -/
theorem step_failed {f : Factor} {text : Array Char} {w : Window} {e : AutomatonError}
    (h : step f text w = .failed e) : ∃ ch, e = .characterOutOfRange ch := by
  unfold step at h
  split at h
  · cases h
  · split at h
    · cases h; exact ⟨_, rfl⟩
    · split at h
      · split at h <;> cases h
      · cases h

/-- A literal that fell back is laid further right. -/
theorem alignment_lt_fallBack {f : Factor} {w : Window} (inside : w.factor ≤ w.input) :
    w.alignment < (w.fallBack (f.carryOverOf w.factor)).alignment := by
  have := f.carryOverOf_lt w.factor
  simp only [alignment, fallBack, Nat.sub_zero]
  omega

theorem step_inside {f : Factor} {text : Array Char} {w next : Window}
    (h : step f text w = .moved next) (inside : w.factor ≤ w.input) :
    next.factor ≤ next.input := by
  rcases (step_moved h).2 with rfl | rfl
  · exact Nat.succ_le_succ inside
  · exact Nat.zero_le _

/-- Whether the literal fits somewhere from the window on. -/
def scan (f : Factor) (text : Array Char) (w : Window) (inside : w.factor ≤ w.input) :
    Except AutomatonError Bool :=
  match h : step f text w with
  | .found => .ok true
  | .ended => .ok false
  | .failed e => .error e
  | .moved next => scan f text next (step_inside h inside)
termination_by (text.size - w.alignment, text.size - w.input)
decreasing_by
  obtain ⟨lt, rfl | rfl⟩ := step_moved h
  · have : w.advance.alignment = w.alignment := by simp [alignment, advance]
    rw [this]
    refine Prod.Lex.right _ ?_
    simp only [advance]
    omega
  · refine Prod.Lex.left _ _ ?_
    have further := alignment_lt_fallBack (f := f) inside
    have : w.alignment ≤ w.input := Nat.sub_le _ _
    omega

end Window

def Factor.search (f : Factor) (line : List Char) : Except AutomatonError Bool :=
  Window.scan f line.toArray ⟨0, 0⟩ (Nat.le_refl 0)

end LineGrep
