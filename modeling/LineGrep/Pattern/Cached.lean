import LineGrep.Pattern.Parse

/-!
A pattern that keeps its tree once it has been read. A pattern that cannot be read keeps nothing, so
each attempt gives the same error again.
-/

namespace LineGrep.Pattern

/-- A pattern with the tree it has been read as, if it has been read. -/
structure Cached where
  pattern : List Char
  tree : Option Regex

namespace Cached

def ofPattern (pattern : List Char) : Cached :=
  ⟨pattern, none⟩

/-- Replaces the pattern and forgets the tree of the old one. -/
def setPattern (_ : Cached) (pattern : List Char) : Cached :=
  ofPattern pattern

def isParsed (c : Cached) : Bool :=
  c.tree.isSome

/-- Takes the kept tree out. -/
def take (c : Cached) : Option Regex × Cached :=
  (c.tree, { c with tree := none })

def keep (c : Cached) (t : Regex) : Cached :=
  { c with tree := some t }

/-- The tree of the pattern: the kept one, which is taken out and put back, or else the one that the
pattern is read as, which is kept from now on. -/
def parse (c : Cached) : Except ParseError Regex × Cached :=
  let (kept, emptied) := c.take
  match kept with
  | some t => (.ok t, emptied.keep t)
  | none =>
    match Pattern.parse emptied.pattern with
    | .ok t => (.ok t, emptied.keep t)
    | .error e => (.error e, emptied)

/-- The kept tree is that of the pattern. -/
def Valid (c : Cached) : Prop :=
  ∀ t, c.tree = some t → Pattern.parse c.pattern = .ok t

theorem valid_ofPattern (pattern : List Char) : (ofPattern pattern).Valid := by
  simp [Valid, ofPattern]

@[simp] theorem pattern_parse (c : Cached) : c.parse.2.pattern = c.pattern := by
  obtain ⟨pattern, _ | t⟩ := c
  · simp only [parse, take]
    split <;> rfl
  · rfl

/-- What is read and what is kept afterwards, if nothing or the right tree was kept. -/
theorem Valid.parse_eq {c : Cached} (h : c.Valid) :
    c.parse = (Pattern.parse c.pattern, ⟨c.pattern, (Pattern.parse c.pattern).toOption⟩) := by
  obtain ⟨pattern, _ | t⟩ := c
  · simp only [parse, take, keep]
    cases Pattern.parse pattern <;> rfl
  · have read : Pattern.parse pattern = .ok t := h t rfl
    rw [read]
    rfl

theorem Valid.parse {c : Cached} (h : c.Valid) : c.parse.2.Valid := by
  rw [h.parse_eq]
  intro t kept
  cases read : Pattern.parse c.pattern with
  | ok u =>
    rw [read] at kept
    rw [Option.some.inj kept]
  | error e =>
    rw [read] at kept
    cases kept

end Cached

end LineGrep.Pattern
