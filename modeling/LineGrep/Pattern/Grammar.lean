import LineGrep.Alphabet
import LineGrep.Pattern.Operator
import LineGrep.Regex.Basic

/-!
The grammar of patterns. Groups bind tightest, then stars, then neighbours, then bars, and both
neighbours and bars associate to the left.
-/

namespace LineGrep.Pattern

/-- The syntactic classes, from the loosest to the tightest. -/
inductive Level where
  | alternation
  | concatenation
  | repetition
  | atom
  deriving DecidableEq, Repr

/-- A pattern belongs to a class and has a tree. -/
inductive Derives : Level → List Char → Regex → Prop where
  | literal {c b} : byteOf? c = some b → isOperator c = false → Derives .atom [c] (.literal b)
  | dot : Derives .atom [wildcard] .dot
  | group {p t} : Derives .alternation p t → Derives .atom ('(' :: p ++ [')']) t
  | ofAtom {p t} : Derives .atom p t → Derives .repetition p t
  | star {p t} : Derives .repetition p t → Derives .repetition (p ++ ['*']) (.star t)
  | ofRepetition {p t} : Derives .repetition p t → Derives .concatenation p t
  | cat {p q l r} : Derives .concatenation p l → Derives .repetition q r →
      Derives .concatenation (p ++ q) (.cat l r)
  | ofConcatenation {p t} : Derives .concatenation p t → Derives .alternation p t
  | alt {p q l r} : Derives .alternation p l → Derives .concatenation q r →
      Derives .alternation (p ++ '|' :: q) (.alt l r)

theorem Derives.ne_nil {level : Level} {p : List Char} {t : Regex} (h : Derives level p t) :
    p ≠ [] := by
  induction h <;> simp_all

end LineGrep.Pattern
