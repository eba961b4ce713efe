import LineGrep.Alphabet
import LineGrep.Automaton.Error
import LineGrep.Pattern.Operator
import LineGrep.Search.Error

/-!
Literal patterns, in which the wildcard is the only operator. For each place where a character of a
line may not fit, a literal knows how many of the characters before it are to be compared again: the
length of the longest border of what fitted, or -1 if the character itself can be passed over. Main
statement: this number is below the place, so the next comparison starts further right.
-/

namespace LineGrep

namespace Factor

/-- Whether one character can fit two places of a literal. -/
def compatible (a b : Char) : Bool :=
  a = b || a = Pattern.wildcard || b = Pattern.wildcard

/-- Whether a text is compatible with the beginning of another, place by place. -/
def agrees : List Char → List Char → Bool
  | [], _ => true
  | _ :: _, [] => false
  | a :: as, b :: bs => compatible a b && agrees as bs

/-- The length of the longest end of a suffix of a text that agrees with the beginning of the
text. -/
def borderWithin (text : List Char) : List Char → Nat
  | [] => 0
  | c :: rest => if agrees (c :: rest) text then rest.length + 1 else borderWithin text rest

/-- The length of the longest end of a text, short of the text itself, that agrees with its
beginning. -/
def longestBorder (text : List Char) : Nat :=
  borderWithin text text.tail

/-- The carry-over of a place, for those of the earlier places. A border that is followed by the
character of the place itself would fail again, so the carry-over of its end is taken instead. A
literal with wildcards keeps its borders: agreement through a wildcard is not transitive, so the
longest border of a border need not be the next border in length. -/
def carryOverAt (chars : List Char) (earlier : List Int) (i : Nat) : Int :=
  if i = 0 then -1
  else
    let border := longestBorder (chars.take i)
    if !chars.contains Pattern.wildcard && chars[i]? == chars[border]? then
      earlier.getD border (-1)
    else border

def carryOvers (chars : List Char) : Nat → List Int
  | 0 => []
  | count + 1 =>
    let earlier := carryOvers chars count
    earlier ++ [carryOverAt chars earlier count]

theorem borderWithin_le (text suffix : List Char) :
    borderWithin text suffix ≤ suffix.length := by
  induction suffix with
  | nil => simp [borderWithin]
  | cons c rest ih =>
    unfold borderWithin
    split
    · exact Nat.le_refl _
    · exact Nat.le_succ_of_le ih

theorem longestBorder_take_lt (chars : List Char) {i : Nat} (h : i ≠ 0) :
    longestBorder (chars.take i) < i := by
  have := borderWithin_le (chars.take i) (chars.take i).tail
  simp only [List.length_tail, List.length_take] at this
  unfold longestBorder
  omega

@[simp] theorem length_carryOvers (chars : List Char) (count : Nat) :
    (carryOvers chars count).length = count := by
  induction count with
  | zero => rfl
  | succ count ih => simp [carryOvers, ih]

theorem carryOverAt_lt {chars : List Char} {earlier : List Int} (i : Nat)
    (below : ∀ j, earlier.getD j (-1) < (j : Int)) : carryOverAt chars earlier i < (i : Int) := by
  unfold carryOverAt
  split
  · omega
  · next h =>
    have lt := longestBorder_take_lt chars h
    simp only
    split
    · have := below (longestBorder (chars.take i))
      omega
    · omega

theorem carryOvers_lt (chars : List Char) (count i : Nat) :
    (carryOvers chars count).getD i (-1) < (i : Int) := by
  induction count generalizing i with
  | zero => simp only [carryOvers, List.getD_nil]; omega
  | succ count ih =>
    simp only [carryOvers, List.getD_eq_getElem?_getD]
    rcases Nat.lt_trichotomy i count with lt | rfl | gt
    · rw [List.getElem?_append_left (by simpa using lt), ← List.getD_eq_getElem?_getD]
      exact ih i
    · rw [List.getElem?_append_right (by simp)]
      simpa using carryOverAt_lt i ih
    · rw [List.getElem?_eq_none (by simp; omega)]
      simp only [Option.getD_none]
      omega

end Factor

/-- A literal pattern with its carry-overs. -/
structure Factor where
  chars : Array Char
  carryOver : Array Int
  carryOver_lt : ∀ i : Nat, carryOver.getD i (-1) < (i : Int)

namespace Factor

def isLiteral (pattern : List Char) : Bool :=
  !pattern.any Pattern.isStructural

def ofChars (chars : List Char) : Factor where
  chars := chars.toArray
  carryOver := (carryOvers chars chars.length).toArray
  carryOver_lt i := by
    have := carryOvers_lt chars chars.length i
    simpa [Array.getD_eq_getD_getElem?, List.getD_eq_getElem?_getD] using this

def ofPattern (pattern : List Char) : Except SearchError Factor :=
  if pattern.isEmpty then .error (.parse .empty)
  else if !isLiteral pattern then .error (.notLiteral pattern)
  else
    match pattern.find? fun c => (byteOf? c).isNone with
    | some c => .error (.parse (.unsupportedCharacter c))
    | none => .ok (ofChars pattern)

def size (f : Factor) : Nat :=
  f.chars.size

def pattern (f : Factor) : List Char :=
  f.chars.toList

def carryOverOf (f : Factor) (i : Nat) : Int :=
  f.carryOver.getD i (-1)

def fits (f : Factor) (i : Nat) (ch : Char) : Bool :=
  match f.chars[i]? with
  | some expected => expected = Pattern.wildcard || expected = ch
  | none => false

theorem carryOverOf_lt (f : Factor) (i : Nat) : f.carryOverOf i < (i : Int) :=
  f.carryOver_lt i

end Factor

end LineGrep
