import LineGrep.Text.Decimal

/-!
Lists of forms with a comma and a space between each two, before a character that closes the list.
If no form can be taken for another, whether the list goes on after it or is closed, and none begins
as the list is closed, then the text determines the list and where it ends. Main statements: this
holds of the digits of numbers, and a list of such forms is determined by its text.
-/

namespace LineGrep.Text

/-- After a form, a list goes on with a comma or is closed. -/
def Ends (closing : Char) (rest : List Char) : Prop :=
  rest.head? = some ',' ∨ rest.head? = some closing

/-- Forms that can be told apart in a list that a character closes. -/
structure Separable {α : Type} (closing : Char) (form : α → List Char) : Prop where
  append_inj : ∀ {a b r s}, Ends closing r → Ends closing s → form a ++ r = form b ++ s →
    a = b ∧ r = s
  append_ne : ∀ {a r s}, form a ++ r ≠ closing :: s

/-- The forms after the first one of a list, with what separates them. -/
def continued (forms : List (List Char)) : List Char :=
  forms.flatMap fun form => ',' :: ' ' :: form

variable {α : Type} {form : α → List Char} {closing : Char} {as bs : List α} {r s : List Char}

theorem commaSeparated_cons (first : List Char) (forms : List (List Char)) :
    commaSeparated (first :: forms) = first ++ continued forms := by
  induction forms generalizing first with
  | nil => simp [commaSeparated, continued]
  | cons second forms ih =>
    have tail : commaSeparated (first :: second :: forms) =
        first ++ [',', ' '] ++ commaSeparated (second :: forms) := List.intercalate_cons_cons
    rw [tail, ih]
    simp [continued]

theorem ends_continued (closing : Char) (forms : List (List Char)) (r : List Char) :
    Ends closing (continued forms ++ closing :: r) := by
  cases forms with
  | nil => exact Or.inr rfl
  | cons => exact Or.inl rfl

theorem Separable.continued_inj (h : Separable closing form) (other : closing ≠ ',')
    (same : continued (as.map form) ++ closing :: r = continued (bs.map form) ++ closing :: s) :
    as = bs ∧ r = s := by
  induction as generalizing bs with
  | nil =>
    cases bs with
    | nil => exact ⟨rfl, (List.cons.inj same).2⟩
    | cons => exact absurd (List.cons.inj same).1 other
  | cons a as ih =>
    cases bs with
    | nil => exact absurd (List.cons.inj same).1.symm other
    | cons b bs =>
      have forms : form a ++ (continued (as.map form) ++ closing :: r) =
          form b ++ (continued (bs.map form) ++ closing :: s) := by
        simpa [continued] using same
      obtain ⟨rfl, rest⟩ := h.append_inj (ends_continued _ _ _) (ends_continued _ _ _) forms
      obtain ⟨rfl, rfl⟩ := ih rest
      exact ⟨rfl, rfl⟩

theorem Separable.commaSeparated_inj (h : Separable closing form) (other : closing ≠ ',')
    (same : commaSeparated (as.map form) ++ closing :: r =
      commaSeparated (bs.map form) ++ closing :: s) : as = bs ∧ r = s := by
  cases as with
  | nil =>
    cases bs with
    | nil => exact ⟨rfl, (List.cons.inj same).2⟩
    | cons b bs =>
      rw [List.map_cons, commaSeparated_cons, List.append_assoc] at same
      exact absurd same.symm h.append_ne
  | cons a as =>
    rw [List.map_cons, commaSeparated_cons, List.append_assoc] at same
    cases bs with
    | nil => exact absurd same h.append_ne
    | cons b bs =>
      rw [List.map_cons, commaSeparated_cons, List.append_assoc] at same
      obtain ⟨rfl, rest⟩ := h.append_inj (ends_continued _ _ _) (ends_continued _ _ _) same
      obtain ⟨rfl, rfl⟩ := h.continued_inj other rest
      exact ⟨rfl, rfl⟩

theorem isDigit_of_mem_decimal {n : Nat} {c : Char} (h : c ∈ decimal n) : c.isDigit = true :=
  Nat.isDigit_of_mem_toDigits (by decide) (by decide) h

theorem exists_decimal_cons (n : Nat) : ∃ c rest, decimal n = c :: rest ∧ c.isDigit = true := by
  have some : decimal n ≠ [] := Nat.toDigits_ne_nil
  obtain ⟨c, rest, digits⟩ := List.exists_cons_of_ne_nil some
  refine ⟨c, rest, digits, isDigit_of_mem_decimal (n := n) ?_⟩
  rw [digits]
  exact List.mem_cons_self

theorem takeWhile_decimal_append (n : Nat) (h : ∀ c, r.head? = some c → c.isDigit = false) :
    (decimal n ++ r).takeWhile Char.isDigit = decimal n := by
  rw [List.takeWhile_append_of_pos fun c mem => isDigit_of_mem_decimal mem]
  cases r with
  | nil => simp
  | cons c r => simp [h c rfl]

/-- The digits of a number end where no digit follows. -/
theorem decimal_append_inj {m n : Nat} (hr : ∀ c, r.head? = some c → c.isDigit = false)
    (hs : ∀ c, s.head? = some c → c.isDigit = false) (same : decimal m ++ r = decimal n ++ s) :
    m = n ∧ r = s := by
  have digits := congrArg (List.takeWhile Char.isDigit) same
  rw [takeWhile_decimal_append m hr, takeWhile_decimal_append n hs] at digits
  obtain rfl := decimal_inj.1 digits
  exact ⟨rfl, List.append_cancel_left same⟩

theorem Ends.not_isDigit (h : Ends closing r) (other : closing.isDigit = false) (c : Char)
    (first : r.head? = some c) : c.isDigit = false := by
  rcases h with comma | close
  · obtain rfl := Option.some.inj (first.symm.trans comma)
    rfl
  · rwa [Option.some.inj (first.symm.trans close)]

theorem separable_decimal (other : closing.isDigit = false) : Separable closing decimal where
  append_inj hr hs same := decimal_append_inj (hr.not_isDigit other) (hs.not_isDigit other) same
  append_ne {n} _ _ same := by
    obtain ⟨c, rest, digits, digit⟩ := exists_decimal_cons n
    rw [digits] at same
    rw [(List.cons.inj same).1, other] at digit
    cases digit

end LineGrep.Text
