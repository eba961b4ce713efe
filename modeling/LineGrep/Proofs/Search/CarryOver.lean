import LineGrep.Proofs.Search.Literal
import Mathlib.Data.List.Forall2
import Mathlib.Order.Bounds.Defs

/-!
What the carry-overs of a literal are. In a literal without wildcards, a border that is followed by
the character of the place itself gives way to the carry-over of its own end; by induction on the
place, this is the longest border that is followed by another character. A literal with wildcards
keeps its longest borders. Main statement: a carry-over is the greatest length of a border of this
kind, or -1 if there is none.
-/

namespace LineGrep.Factor

open Pattern (wildcard)

/-- Two characters of a literal agree if they are equal or one of them is the wildcard. -/
def Agree (a b : Char) : Prop :=
  a = b ∨ a = wildcard ∨ b = wildcard

/-- The lengths below `i` of the beginnings that end the first `i` characters and are followed by
another character than these. -/
def strictBorders (pattern : List Char) (i : Nat) : Set Nat :=
  {b | b < i ∧ pattern.take b <:+ pattern.take i ∧ pattern[b]? ≠ pattern[i]?}

/-- The lengths below `i` of the beginnings that agree, character by character, with as many of the
last of the first `i` characters. -/
def agreeingBorders (pattern : List Char) (i : Nat) : Set Nat :=
  {b | b < i ∧ List.Forall₂ Agree (pattern.take b) ((pattern.take i).drop (i - b))}

/-- The greatest of a set of lengths, or -1 if the set is empty. -/
inductive Longest (lengths : Set Nat) : Int → Prop where
  | absent : (∀ b, b ∉ lengths) → Longest lengths (-1)
  | greatest {b : Nat} : IsGreatest lengths b → Longest lengths b

variable {pattern : List Char} {i b : Nat}

theorem compatible_iff {a c : Char} : compatible a c = true ↔ Agree c a := by
  simp only [compatible, Agree, Bool.or_eq_true, decide_eq_true_eq, eq_comm (a := a) (b := c)]
  tauto

/-- The borders of a place are the beginnings that agree with as many of the last characters. -/
theorem isBorder_iff_mem_agreeingBorders (inside : i ≤ pattern.length) :
    IsBorder pattern i b ↔ b ∈ agreeingBorders pattern i := by
  constructor
  · rintro ⟨proper, agree⟩
    refine ⟨proper, List.forall₂_iff_get.2 ⟨by simp; omega, fun k h h' => ?_⟩⟩
    simp only [List.length_take] at h
    simp only [List.get_eq_getElem, List.getElem_take, List.getElem_drop]
    exact compatible_iff.1 (agree k (by omega) _ _ (List.getElem?_eq_getElem (by omega))
      (List.getElem?_eq_getElem (by omega)))
  · rintro ⟨proper, agree⟩
    refine ⟨proper, fun k lt x y hx hy => compatible_iff.2 ?_⟩
    obtain ⟨-, rfl⟩ := List.getElem?_eq_some_iff.1 hx
    obtain ⟨-, rfl⟩ := List.getElem?_eq_some_iff.1 hy
    have place := (List.forall₂_iff_get.1 agree).2 k (by simp; omega) (by simp; omega)
    simpa only [List.get_eq_getElem, List.getElem_take, List.getElem_drop] using place

/-- Without wildcards, agreement is equality. -/
theorem eq_of_forall₂_agree {first second : List Char} (h : List.Forall₂ Agree first second)
    (plain : wildcard ∉ first) (plain' : wildcard ∉ second) : first = second := by
  induction h with
  | nil => rfl
  | cons head _ ih =>
    rw [List.mem_cons, not_or] at plain plain'
    rcases head with rfl | rfl | rfl
    · rw [ih plain.2 plain'.2]
    · exact absurd rfl plain.1
    · exact absurd rfl plain'.1

/-- Without wildcards, the borders of a place are the beginnings that are ends. -/
theorem isBorder_iff_suffix (plain : wildcard ∉ pattern) (inside : i ≤ pattern.length) :
    IsBorder pattern i b ↔ b < i ∧ pattern.take b <:+ pattern.take i := by
  rw [isBorder_iff_mem_agreeingBorders inside]
  refine and_congr_right fun proper => ?_
  have start : (pattern.take i).length - (pattern.take b).length = i - b := by simp; omega
  rw [List.suffix_iff_eq_drop, start]
  constructor
  · intro agree
    exact eq_of_forall₂_agree agree (fun mem => plain (List.mem_of_mem_take mem))
      (fun mem => plain (List.mem_of_mem_take (List.mem_of_mem_drop mem)))
  · intro same
    rw [← same]
    exact List.forall₂_same.2 fun _ _ => Or.inl rfl

/-- A strict border of the end of a border is one of the place, if both ends are followed by the
same character. -/
theorem strictBorders_subset {border : Nat} (proper : border < i)
    (ends : pattern.take border <:+ pattern.take i) (same : pattern[i]? = pattern[border]?) :
    strictBorders pattern border ⊆ strictBorders pattern i := by
  rintro b ⟨shorter, ends', differs⟩
  exact ⟨Nat.lt_trans shorter proper, ends'.trans ends, same ▸ differs⟩

/-- A carry-over of a literal without wildcards is a strict border, if it is not -1. -/
theorem carryOverAt_mem_strictBorders (plain : wildcard ∉ pattern) (inside : i < pattern.length) :
    carryOverAt pattern (carryOvers pattern i) i = -1 ∨
      ∃ b ∈ strictBorders pattern i, carryOverAt pattern (carryOvers pattern i) i = b := by
  -- On the place: a collapsed entry is the entry of the end of its longest border.
  induction i using Nat.strongRecOn with
  | _ i ih =>
    by_cases first : i = 0
    · exact Or.inl (by rw [carryOverAt, if_pos first])
    have border := isBorder_longestBorder first (Nat.le_of_lt inside)
    obtain ⟨proper, ends⟩ := (isBorder_iff_suffix plain (Nat.le_of_lt inside)).1 border
    rw [carryOverAt, if_neg first]
    simp only
    split
    · next collapses =>
      have same : pattern[i]? = pattern[longestBorder (pattern.take i)]? := by
        simp only [Bool.and_eq_true, beq_iff_eq] at collapses
        exact collapses.2
      rw [getD_carryOvers proper]
      refine (ih _ proper (by omega)).imp_right ?_
      rintro ⟨b, mem, value⟩
      exact ⟨b, strictBorders_subset proper ends same mem, value⟩
    · next keeps =>
      refine Or.inr ⟨_, ⟨proper, ends, fun same => keeps ?_⟩, rfl⟩
      simp [plain, same]

theorem le_carryOverAt_of_mem_strictBorders (plain : wildcard ∉ pattern)
    (inside : i < pattern.length) (mem : b ∈ strictBorders pattern i) :
    (b : Int) ≤ carryOverAt pattern (carryOvers pattern i) i := by
  obtain ⟨proper, ends, differs⟩ := mem
  have border := (isBorder_iff_suffix plain (Nat.le_of_lt inside)).2 ⟨proper, ends⟩
  have next : pattern[b]? = some pattern[b] := List.getElem?_eq_getElem (by omega)
  have suits : Suits pattern b pattern[b] := Or.inr next
  refine border.le_carryOverAt inside suits ?_
  rintro (any | same)
  · exact plain (List.mem_of_getElem? any)
  · exact differs (next.trans same.symm)

/-- A carry-over of a literal without wildcards is the greatest of the strict borders. -/
theorem longest_carryOverAt (plain : wildcard ∉ pattern) (inside : i < pattern.length) :
    Longest (strictBorders pattern i) (carryOverAt pattern (carryOvers pattern i) i) := by
  rcases carryOverAt_mem_strictBorders plain inside with none | ⟨b, mem, value⟩
  · rw [none]
    refine .absent fun b mem => ?_
    have le := le_carryOverAt_of_mem_strictBorders plain inside mem
    omega
  · rw [value]
    refine .greatest ⟨mem, fun other mem' => ?_⟩
    have le := le_carryOverAt_of_mem_strictBorders plain inside mem'
    omega

/-- A carry-over of a literal with wildcards, past the first, is the greatest of the agreeing
borders. -/
theorem isGreatest_carryOverAt (wild : wildcard ∈ pattern) (inside : i < pattern.length)
    (past : 0 < i) : ∃ b : Nat, carryOverAt pattern (carryOvers pattern i) i = b ∧
      IsGreatest (agreeingBorders pattern i) b := by
  have within := Nat.le_of_lt inside
  have other : i ≠ 0 := Nat.ne_of_gt past
  refine ⟨longestBorder (pattern.take i), ?_, ?_, fun b mem => ?_⟩
  · simp [carryOverAt, other, wild]
  · exact (isBorder_iff_mem_agreeingBorders within).1 (isBorder_longestBorder other within)
  · exact ((isBorder_iff_mem_agreeingBorders within).2 mem).le_longestBorder within

theorem carryOver_ofChars_eq_some_iff {c : Int} : (ofChars pattern).carryOver[i]? = some c ↔
    i < pattern.length ∧ c = carryOverAt pattern (carryOvers pattern i) i := by
  have size : (ofChars pattern).carryOver.size = pattern.length := by simp [ofChars]
  constructor
  · intro entry
    obtain ⟨lt, -⟩ := Array.getElem?_eq_some_iff.1 entry
    have inside : i < pattern.length := size ▸ lt
    refine ⟨inside, ?_⟩
    rw [← carryOverOf_ofChars inside, carryOverOf, Array.getD_eq_getD_getElem?, entry]
    rfl
  · rintro ⟨inside, rfl⟩
    rw [← carryOverOf_ofChars inside, carryOverOf, Array.getD_eq_getD_getElem?,
      Array.getElem?_eq_getElem (size ▸ inside)]
    rfl

/-- A literal has one carry-over for each of its places. Without wildcards it is the greatest length
of a beginning that ends the characters before the place and is followed by another character than
they are, or -1 if there is none. With wildcards it is -1 for the first place, and for another the
greatest length, short of all, of a beginning that agrees with the last of the characters before the
place. It is never below -1 and always below its place. -/
theorem carryOver_longest {f : Factor} (made : ofPattern pattern = .ok f) :
    f.carryOver.size = pattern.length ∧
      ∀ (i : Nat) (c : Int), f.carryOver[i]? = some c →
        (wildcard ∉ pattern → Longest (strictBorders pattern i) c) ∧
        (wildcard ∈ pattern → 0 < i → ∃ b : Nat, c = b ∧
          IsGreatest (agreeingBorders pattern i) b) ∧
        (i = 0 → c = -1) ∧ -1 ≤ c ∧ c < i := by
  obtain ⟨-, -, -, rfl⟩ := ofPattern_eq_ok_iff.1 made
  refine ⟨by simp [ofChars], fun i c entry => ?_⟩
  obtain ⟨inside, rfl⟩ := carryOver_ofChars_eq_some_iff.1 entry
  refine ⟨fun plain => longest_carryOverAt plain inside,
    fun wild past => isGreatest_carryOverAt wild inside past,
    fun first => by rw [carryOverAt, if_pos first], ?_, ?_⟩
  · exact neg_one_le_carryOverAt (neg_one_le_carryOvers pattern i) i
  · exact carryOverAt_lt i (carryOvers_lt pattern i)

theorem carryOver_plain_and_wild :
    ofPattern "mamamia".toList = .ok (ofChars "mamamia".toList) ∧
      (ofChars "mamamia".toList).carryOver[5]? = some 3 ∧
      Longest (strictBorders "mamamia".toList 5) 3 ∧
      ofPattern "a.ab".toList = .ok (ofChars "a.ab".toList) ∧
      (ofChars "a.ab".toList).carryOver[3]? = some 2 ∧
      ∃ b : Nat, (2 : Int) = b ∧ IsGreatest (agreeingBorders "a.ab".toList 3) b := by
  have plain : ofPattern "mamamia".toList = .ok (ofChars "mamamia".toList) := rfl
  have fifth : (ofChars "mamamia".toList).carryOver[5]? = some 3 := by decide
  have wild : ofPattern "a.ab".toList = .ok (ofChars "a.ab".toList) := rfl
  have third : (ofChars "a.ab".toList).carryOver[3]? = some 2 := by decide
  exact ⟨plain, fifth, ((carryOver_longest plain).2 5 3 fifth).1 (by decide), wild, third,
    ((carryOver_longest wild).2 3 2 third).2.1 (by decide) (by decide)⟩

end LineGrep.Factor
