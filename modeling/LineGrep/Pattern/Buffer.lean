import LineGrep.Alphabet
import LineGrep.Pattern.Error
import LineGrep.Pattern.Operator
import LineGrep.Regex.Basic

/-!
Half-parsed patterns: rows of trees and of structural characters that are still to be resolved. A
rewriting replaces a few neighbours by one tree. Main statements: each rewriting of stars, of
neighbours and of bars gives a shorter row with the same leaves.
-/

namespace LineGrep.Pattern

/-- A structural character that is still to be resolved. -/
inductive Mark where
  | opening
  | closing
  | star
  | bar
  deriving DecidableEq, Repr

/-- An entry of a half-parsed pattern. -/
inductive Item where
  | tree (t : Regex)
  | mark (m : Mark)
  deriving DecidableEq, Repr

abbrev Buffer := List Item

/-- What one rewriting makes of a buffer: an error, nothing if there is no place for it, or the
rewritten buffer. -/
abbrev Rewriting := Except ParseError (Option Buffer)

def Item.ofChar (c : Char) : Except ParseError Item :=
  if c = wildcard then .ok (.tree .dot)
  else if c = '*' then .ok (.mark .star)
  else if c = '|' then .ok (.mark .bar)
  else if c = '(' then .ok (.mark .opening)
  else if c = ')' then .ok (.mark .closing)
  else
    match byteOf? c with
    | some b => .ok (.tree (.literal b))
    | none => .error (.unsupportedCharacter c)

def Item.isMark (m : Mark) : Item → Bool
  | .mark n => n = m
  | .tree _ => false

def Item.leaves : Item → List Regex.Leaf
  | .tree t => t.leaves
  | .mark _ => []

namespace Buffer

/-- The entries of a pattern, one for each character. -/
def ofPattern : List Char → Except ParseError Buffer
  | [] => .ok []
  | c :: rest =>
    match Item.ofChar c with
    | .error e => .error e
    | .ok item => (ofPattern rest).map (item :: ·)

def leaves (buffer : Buffer) : List Regex.Leaf :=
  buffer.flatMap Item.leaves

/-- Repeats the tree before the first star. -/
def rewriteStar : Buffer → Rewriting
  | [] => .ok none
  | .mark .star :: _ => .error .starWithoutOperand
  | .tree t :: .mark .star :: rest => .ok (some (.tree (.star t) :: rest))
  | item :: rest => (rewriteStar rest).map (Option.map (item :: ·))

/-- Joins the first two trees that stand side by side. -/
def rewriteCat : Buffer → Rewriting
  | [] => .ok none
  | .tree left :: .tree right :: rest => .ok (some (.tree (.cat left right) :: rest))
  | item :: rest => (rewriteCat rest).map (Option.map (item :: ·))

/-- Joins the trees on both sides of the first bar. -/
def rewriteBar : Buffer → Rewriting
  | [] => .ok none
  | .mark .bar :: _ => .error .missingLeftOperand
  | .tree left :: .mark .bar :: .tree right :: rest =>
    .ok (some (.tree (.alt left right) :: rest))
  | .tree _ :: .mark .bar :: _ => .error .missingRightOperand
  | item :: rest => (rewriteBar rest).map (Option.map (item :: ·))

/-- A rewriting is sound if what it makes of a buffer is shorter and has the same leaves. -/
structure Shortens (rewrite : Buffer → Rewriting) : Prop where
  length_lt : ∀ {before after}, rewrite before = .ok (some after) → after.length < before.length
  leaves_eq : ∀ {before after}, rewrite before = .ok (some after) → after.leaves = before.leaves

theorem map_cons_eq {item : Item} {r : Rewriting} {after : Buffer}
    (h : r.map (Option.map (item :: ·)) = .ok (some after)) :
    ∃ tail, r = .ok (some tail) ∧ after = item :: tail := by
  match r, h with
  | .ok (some tail), h => exact ⟨tail, rfl, by simpa [Except.map] using h.symm⟩

theorem shortens_rewriteStar : Shortens rewriteStar := by
  constructor
  all_goals
    intro before after h
    fun_induction rewriteStar before generalizing after
    case case1 | case2 => simp at h
    case case3 => cases h; simp [leaves, Item.leaves, Regex.leaves]
    case case4 ih =>
      obtain ⟨tail, ht, rfl⟩ := map_cons_eq h
      simpa [leaves] using ih ht

theorem shortens_rewriteCat : Shortens rewriteCat := by
  constructor
  all_goals
    intro before after h
    fun_induction rewriteCat before generalizing after
    case case1 => simp at h
    case case2 => cases h; simp [leaves, Item.leaves, Regex.leaves]
    case case3 ih =>
      obtain ⟨tail, ht, rfl⟩ := map_cons_eq h
      simpa [leaves] using ih ht

theorem shortens_rewriteBar : Shortens rewriteBar := by
  constructor
  all_goals
    intro before after h
    fun_induction rewriteBar before generalizing after
    case case1 | case2 | case4 => simp at h
    case case3 => cases h; simp [leaves, Item.leaves, Regex.leaves]
    case case5 ih =>
      obtain ⟨tail, ht, rfl⟩ := map_cons_eq h
      simpa [leaves] using ih ht

end Buffer

end LineGrep.Pattern
