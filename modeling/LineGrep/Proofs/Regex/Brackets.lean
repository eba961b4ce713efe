import LineGrep.Proofs.Text.ByteEscape
import LineGrep.Regex.Brackets

/-!
Reading bracket forms back. The first character of a form tells the kind of the node, and a form ends
where no other form could, whatever follows it. So the apostrophes, commas, spaces and parentheses
around a form are never taken for literals inside it. Main statement: a text is the bracket form of
at most one tree, and begins with the bracket form of at most one tree.
-/

namespace LineGrep.Regex

/-- The bracket form of a tree can be told from what follows it. -/
def Delimited (t : Regex) : Prop :=
  ∀ (u : Regex) (r s : List Char), t.bracketed ++ r = u.bracketed ++ s → t = u ∧ r = s

/-- The character that the bracket form of a tree begins with. -/
def sign : Regex → Char
  | literal _ => Text.apostrophe
  | dot => 'd'
  | cat _ _ => 'c'
  | alt _ _ => 'a'
  | star _ => 's'

variable {t u left right left' right' body body' : Regex} {r s : List Char} {name : String}

theorem head?_bracketed_append (t : Regex) (r : List Char) :
    (t.bracketed ++ r).head? = some t.sign := by
  cases t <;> rfl

theorem bracketed_append_ne (differ : t.sign ≠ u.sign) :
    t.bracketed ++ r ≠ u.bracketed ++ s := by
  intro same
  have heads := congrArg List.head? same
  rw [head?_bracketed_append, head?_bracketed_append, Option.some.injEq] at heads
  exact differ heads

theorem call_append (name : String) (inner r : List Char) :
    call name inner ++ r = name.toList ++ '(' :: (inner ++ ')' :: r) := by
  simp [call]

theorem call_append_inj {inner inner' : List Char} :
    call name inner ++ r = call name inner' ++ s ↔ inner ++ ')' :: r = inner' ++ ')' :: s := by
  rw [call_append, call_append, List.append_cancel_left_eq, List.cons_inj_right]

theorem delimited_literal (b : UInt8) : Delimited (literal b) := by
  intro u r s same
  cases u with
  | literal b' =>
    have quoted : Text.escapeByte b ++ Text.apostrophe :: r =
        Text.escapeByte b' ++ Text.apostrophe :: s := by
      simpa [bracketed] using same
    obtain ⟨rfl, rest⟩ := Text.escapeByte_append_inj.1 quoted
    exact ⟨rfl, (List.cons.inj rest).2⟩
  | dot | cat | alt | star =>
    exact absurd same (bracketed_append_ne (by simp [sign, Text.apostrophe]))

theorem delimited_dot : Delimited dot := by
  intro u r s same
  cases u with
  | dot => exact ⟨rfl, List.append_cancel_left same⟩
  | literal | cat | alt | star =>
    exact absurd same (bracketed_append_ne (by simp [sign, Text.apostrophe]))

/-- Two children are read one after the other. -/
theorem Delimited.both (first : Delimited left) (second : Delimited right)
    (same : call name (left.bracketed ++ ", ".toList ++ right.bracketed) ++ r =
      call name (left'.bracketed ++ ", ".toList ++ right'.bracketed) ++ s) :
    left = left' ∧ right = right' ∧ r = s := by
  rw [call_append_inj] at same
  simp only [List.append_assoc] at same
  obtain ⟨rfl, others⟩ := first _ _ _ same
  rw [List.append_cancel_left_eq] at others
  obtain ⟨rfl, rest⟩ := second _ _ _ others
  exact ⟨rfl, rfl, (List.cons.inj rest).2⟩

theorem Delimited.only (child : Delimited body)
    (same : call name body.bracketed ++ r = call name body'.bracketed ++ s) :
    body = body' ∧ r = s := by
  rw [call_append_inj] at same
  obtain ⟨rfl, rest⟩ := child _ _ _ same
  exact ⟨rfl, (List.cons.inj rest).2⟩

theorem delimited (t : Regex) : Delimited t := by
  induction t with
  | literal b => exact delimited_literal b
  | dot => exact delimited_dot
  | cat left right first second =>
    intro u r s same
    cases u with
    | cat left' right' =>
      obtain ⟨rfl, rfl, rest⟩ := first.both second same
      exact ⟨rfl, rest⟩
    | literal | dot | alt | star =>
      exact absurd same (bracketed_append_ne (by simp [sign, Text.apostrophe]))
  | alt left right first second =>
    intro u r s same
    cases u with
    | alt left' right' =>
      obtain ⟨rfl, rfl, rest⟩ := first.both second same
      exact ⟨rfl, rest⟩
    | literal | dot | cat | star =>
      exact absurd same (bracketed_append_ne (by simp [sign, Text.apostrophe]))
  | star body child =>
    intro u r s same
    cases u with
    | star body' =>
      obtain ⟨rfl, rest⟩ := child.only same
      exact ⟨rfl, rest⟩
    | literal | dot | cat | alt =>
      exact absurd same (bracketed_append_ne (by simp [sign, Text.apostrophe]))

/-- Different trees have different bracket forms. Even where something follows, the text determines
the tree that it begins with and the place where its form ends. -/
theorem bracketed_canonical (t u : Regex) :
    (t.bracketed = u.bracketed ↔ t = u) ∧
      ∀ r s, t.bracketed ++ r = u.bracketed ++ s ↔ t = u ∧ r = s := by
  refine ⟨⟨fun same => ?_, congrArg bracketed⟩, fun r s => ⟨t.delimited u r s, ?_⟩⟩
  · exact (t.delimited u [] [] (by rw [same])).1
  · rintro ⟨rfl, rfl⟩
    rfl

end LineGrep.Regex
