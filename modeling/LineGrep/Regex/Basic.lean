/-!
Regular expressions over bytes, as trees.
-/

namespace LineGrep

inductive Regex where
  | literal (b : UInt8)
  | dot
  | cat (left right : Regex)
  | alt (left right : Regex)
  | star (body : Regex)
  deriving DecidableEq, Repr

namespace Regex

/-- The literal for a character, of whose code point it keeps the low eight bits. -/
def ofChar (c : Char) : Regex :=
  .literal (UInt8.ofNat c.toNat)

/-- The tree of `a|bc*`, the running example of Aho and Ullman. -/
def ahoUllman : Regex :=
  .alt (ofChar 'a') (.cat (ofChar 'b') (.star (ofChar 'c')))

def size : Regex → Nat
  | literal _ | dot => 1
  | cat left right | alt left right => 1 + left.size + right.size
  | star body => 1 + body.size

inductive Leaf where
  | literal (b : UInt8)
  | dot
  deriving DecidableEq, Repr

def leaves : Regex → List Leaf
  | literal b => [.literal b]
  | dot => [.dot]
  | cat left right | alt left right => left.leaves ++ right.leaves
  | star body => body.leaves

end Regex

end LineGrep
