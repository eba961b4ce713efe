import LineGrep.Search.Factor

/-!
Borders of a literal and its carry-overs. A border of the first characters is an end of them that
agrees with their beginning place by place. Main statement: the carry-over of a place is at least as
long as each border whose next character could fit where that of the place does not.
-/

namespace LineGrep.Factor

open Pattern (wildcard)

/-- Of the first `i` characters, the last `len` agree with the first `len`, and `len` is less than
`i`. -/
structure IsBorder (chars : List Char) (i len : Nat) : Prop where
  proper : len < i
  agree : ∀ k < len, ∀ a b : Char, chars[i - len + k]? = some a → chars[k]? = some b →
    compatible a b = true

/-- The place of a literal fits a character. -/
def Suits (chars : List Char) (k : Nat) (ch : Char) : Prop :=
  chars[k]? = some wildcard ∨ chars[k]? = some ch

variable {chars : List Char}

theorem compatible_of_suits {k l : Nat} {a b ch : Char} (ha : chars[k]? = some a)
    (hb : chars[l]? = some b) (first : Suits chars k ch) (second : Suits chars l ch) :
    compatible a b = true := by
  simp only [Suits, ha, hb, Option.some.injEq] at first second
  simp only [compatible, Bool.or_eq_true, decide_eq_true_eq]
  rcases first with rfl | rfl
  · exact Or.inl (Or.inr rfl)
  · rcases second with rfl | rfl
    · exact Or.inr rfl
    · exact Or.inl (Or.inl rfl)

/-- Without wildcards, agreement is equality. -/
theorem eq_of_compatible (plain : wildcard ∉ chars) {k l : Nat} {a b : Char}
    (ha : chars[k]? = some a) (hb : chars[l]? = some b) (h : compatible a b = true) : a = b := by
  have notA : a ≠ wildcard := by
    rintro rfl
    exact plain (List.mem_of_getElem? ha)
  have notB : b ≠ wildcard := by
    rintro rfl
    exact plain (List.mem_of_getElem? hb)
  simpa [compatible, notA, notB] using h

theorem agrees_iff {as bs : List Char} : agrees as bs = true ↔ as.length ≤ bs.length ∧
    ∀ (k : Nat) (a b : Char), as[k]? = some a → bs[k]? = some b → compatible a b = true := by
  induction as generalizing bs with
  | nil => simp [agrees]
  | cons a as ih =>
    cases bs with
    | nil => simp [agrees]
    | cons b bs =>
      rw [agrees, Bool.and_eq_true, ih]
      constructor
      · rintro ⟨first, short, rest⟩
        refine ⟨Nat.succ_le_succ short, fun k x y hx hy => ?_⟩
        cases k with
        | zero =>
          obtain rfl : a = x := by simpa using hx
          obtain rfl : b = y := by simpa using hy
          exact first
        | succ k => exact rest k x y hx hy
      · rintro ⟨short, all⟩
        exact ⟨all 0 a b rfl rfl, Nat.le_of_succ_le_succ short, fun k => all (k + 1)⟩

theorem le_borderWithin {text suffix ending : List Char} (h : ending <:+ suffix)
    (agree : agrees ending text = true) : ending.length ≤ borderWithin text suffix := by
  induction suffix with
  | nil =>
    obtain rfl := List.suffix_nil.1 h
    exact Nat.zero_le _
  | cons c rest ih =>
    unfold borderWithin
    split
    · exact h.length_le
    · next differs =>
      rcases List.suffix_cons_iff.1 h with rfl | shorter
      · exact absurd agree differs
      · exact ih shorter

theorem exists_agrees_borderWithin (text suffix : List Char) :
    ∃ ending, ending <:+ suffix ∧ ending.length = borderWithin text suffix ∧
      agrees ending text = true := by
  induction suffix with
  | nil => exact ⟨[], List.suffix_rfl, rfl, rfl⟩
  | cons c rest ih =>
    unfold borderWithin
    split
    · next agree => exact ⟨c :: rest, List.suffix_rfl, rfl, agree⟩
    · obtain ⟨ending, shorter, length, agree⟩ := ih
      exact ⟨ending, shorter.trans (List.suffix_cons c rest), length, agree⟩

/-- The border of a given length, as an end of the first characters. -/
theorem isBorder_iff {i len : Nat} (proper : len < i) :
    IsBorder chars i len ↔ agrees ((chars.take i).drop (i - len)) (chars.take i) = true := by
  have place (k : Nat) : ((chars.take i).drop (i - len))[k]? =
      if k < len then chars[i - len + k]? else none := by
    rw [List.getElem?_drop, List.getElem?_take]
    by_cases lt : k < len
    · rw [if_pos lt, if_pos (by omega)]
    · rw [if_neg lt, if_neg (by omega)]
  rw [agrees_iff]
  constructor
  · rintro ⟨-, agree⟩
    refine ⟨by simp, fun k a b ha hb => ?_⟩
    rw [place] at ha
    split at ha
    · next lt =>
      rw [List.getElem?_take, if_pos (by omega)] at hb
      exact agree k lt a b ha hb
    · cases ha
  · rintro ⟨-, agree⟩
    refine ⟨proper, fun k lt a b ha hb => agree k a b ?_ ?_⟩
    · rw [place, if_pos lt, ha]
    · rw [List.getElem?_take, if_pos (by omega), hb]

theorem drop_suffix_tail {i len : Nat} (proper : len < i) :
    (chars.take i).drop (i - len) <:+ (chars.take i).tail := by
  rw [← List.drop_one]
  exact List.drop_suffix_drop_left _ (by omega)

/-- No border is longer than the longest. -/
theorem IsBorder.le_longestBorder {i len : Nat} (h : IsBorder chars i len)
    (inside : i ≤ chars.length) : len ≤ longestBorder (chars.take i) := by
  have le := le_borderWithin (drop_suffix_tail h.proper) ((isBorder_iff h.proper).1 h)
  have proper := h.proper
  simp only [List.length_drop, List.length_take] at le
  unfold longestBorder
  omega

theorem isBorder_longestBorder {i : Nat} (pos : i ≠ 0) (inside : i ≤ chars.length) :
    IsBorder chars i (longestBorder (chars.take i)) := by
  have proper := longestBorder_take_lt chars pos
  rw [isBorder_iff proper]
  obtain ⟨ending, shorter, length, agree⟩ :=
    exists_agrees_borderWithin (chars.take i) (chars.take i).tail
  have whole : ending <:+ chars.take i := shorter.trans (List.tail_suffix _)
  have total : (chars.take i).length = i := by simp [inside]
  have same := List.suffix_iff_eq_drop.1 whole
  rw [length, total] at same
  rw [longestBorder, ← same]
  exact agree

/-- Without wildcards, the shorter of two borders is a border of the longer one. -/
theorem IsBorder.of_longer (plain : wildcard ∉ chars) {i border len : Nat}
    (longer : IsBorder chars i border) (h : IsBorder chars i len) (inside : i ≤ chars.length)
    (shorter : len < border) : IsBorder chars border len := by
  refine ⟨shorter, fun k lt a b ha hb => ?_⟩
  have proper := longer.proper
  -- The place `i - len + k` of the first `i` characters agrees with both places.
  have place : i - border + (border - len + k) = i - len + k := by omega
  obtain ⟨c, hc⟩ : ∃ c, chars[i - len + k]? = some c :=
    ⟨_, List.getElem?_eq_getElem (by omega)⟩
  have first := longer.agree (border - len + k) (by omega) c a (by rw [place, hc]) ha
  have second := h.agree k lt c b hc hb
  obtain rfl := eq_of_compatible plain hc ha first
  exact second

theorem getD_carryOvers {count i : Nat} (h : i < count) :
    (carryOvers chars count).getD i (-1) = carryOverAt chars (carryOvers chars i) i := by
  induction count with
  | zero => omega
  | succ count ih =>
    rw [carryOvers, List.getD_eq_getElem?_getD]
    by_cases last : i = count
    · subst last
      rw [List.getElem?_append_right (by simp)]
      simp
    · have lt : i < count := by omega
      rw [List.getElem?_append_left (by simpa using lt), ← List.getD_eq_getElem?_getD]
      exact ih lt

theorem neg_one_le_carryOverAt {earlier : List Int} (above : ∀ j, -1 ≤ earlier.getD j (-1))
    (i : Nat) : -1 ≤ carryOverAt chars earlier i := by
  unfold carryOverAt
  split
  · omega
  · simp only
    split
    · exact above _
    · omega

theorem neg_one_le_carryOvers (chars : List Char) (count i : Nat) :
    -1 ≤ (carryOvers chars count).getD i (-1) := by
  induction count using Nat.strongRecOn generalizing i with
  | _ count ih =>
    by_cases lt : i < count
    · rw [getD_carryOvers lt]
      exact neg_one_le_carryOverAt (ih i lt) i
    · have none : (carryOvers chars count)[i]? = none := by simpa using lt
      simp [List.getD_eq_getElem?_getD, none]

theorem suits_congr {i j : Nat} {ch : Char} (same : chars[i]? = chars[j]?) :
    Suits chars i ch ↔ Suits chars j ch := by
  rw [Suits, Suits, same]

/-- The carry-over of a place is no shorter than a border whose next character fits a character that
the place does not fit. -/
theorem IsBorder.le_carryOverAt {i len : Nat} (h : IsBorder chars i len) (inside : i < chars.length)
    {ch : Char} (next : Suits chars len ch) (fails : ¬Suits chars i ch) :
    (len : Int) ≤ carryOverAt chars (carryOvers chars i) i := by
  induction i using Nat.strongRecOn with
  | _ i ih =>
    have pos : i ≠ 0 := Nat.ne_of_gt (Nat.zero_lt_of_lt h.proper)
    have within : i ≤ chars.length := Nat.le_of_lt inside
    have le := h.le_longestBorder within
    have longest := isBorder_longestBorder pos within
    unfold carryOverAt
    rw [if_neg pos]
    generalize longestBorder (chars.take i) = border at le longest
    have proper := longest.proper
    simp only
    split
    · next collapses =>
      simp only [Bool.and_eq_true, Bool.not_eq_true', beq_iff_eq] at collapses
      obtain ⟨none, same⟩ := collapses
      have plain : wildcard ∉ chars := by simpa using none
      -- The longest border would fail as the place does, so the given one is shorter.
      have other : len ≠ border := by
        rintro rfl
        exact fails ((suits_congr same).2 next)
      have shorter := longest.of_longer plain h within (by omega)
      rw [getD_carryOvers proper]
      exact ih border proper shorter (by omega) fun suits => fails ((suits_congr same).2 suits)
    · omega

end LineGrep.Factor
