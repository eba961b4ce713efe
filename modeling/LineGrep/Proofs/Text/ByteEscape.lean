import LineGrep.Text.ByteEscape

/-!
Escaped bytes in a longer text. A byte is written in one of three forms, which the first two
characters tell apart. Main statement: no byte's form begins another's, so a text that begins with an
escaped byte determines the byte and where its form ends.
-/

namespace LineGrep.Text

variable {a b : UInt8} {r s : List Char}

theorem digitChar_inj : ∀ m < 16, ∀ n < 16, Nat.digitChar m = Nat.digitChar n → m = n := by
  decide

theorem hexPair_append_inj : hexPair a ++ r = hexPair b ++ s ↔ a = b ∧ r = s := by
  constructor
  · intro same
    simp only [hexPair, List.cons_append, List.nil_append, List.cons.injEq] at same
    obtain ⟨high, low, rest⟩ := same
    have below (c : UInt8) : c.toNat / 16 < 16 := by
      have := c.toNat_lt
      omega
    have quotient := digitChar_inj _ (below a) _ (below b) high
    have remainder :=
      digitChar_inj _ (Nat.mod_lt _ (by decide)) _ (Nat.mod_lt _ (by decide)) low
    refine ⟨UInt8.toNat_inj.1 ?_, rest⟩
    rw [← Nat.div_add_mod a.toNat 16, ← Nat.div_add_mod b.toNat 16, quotient, remainder]
  · rintro ⟨rfl, rfl⟩
    rfl

/-- A byte stands for itself, or follows a backslash, or is written by its digits. -/
theorem escapeByte_cases (b : UInt8) :
    escapeByte b = [charOf b] ∧ charOf b ≠ backslash ∨
      escapeByte b = [backslash, charOf b] ∧ charOf b ≠ 'x' ∨
      escapeByte b = backslash :: 'x' :: hexPair b := by
  unfold escapeByte
  split
  · next quoted =>
    refine Or.inr (Or.inl ⟨rfl, ?_⟩)
    rcases quoted with same | same <;> rw [same] <;> decide
  · next plain =>
    split
    · exact Or.inl ⟨rfl, fun same => plain (Or.inr same)⟩
    · exact Or.inr (Or.inr rfl)

theorem escapeByte_append_inj : escapeByte a ++ r = escapeByte b ++ s ↔ a = b ∧ r = s := by
  constructor
  · intro same
    rcases escapeByte_cases a with ⟨formA, plainA⟩ | ⟨formA, plainA⟩ | formA <;>
      rcases escapeByte_cases b with ⟨formB, plainB⟩ | ⟨formB, plainB⟩ | formB <;>
      rw [formA, formB] at same <;>
      simp only [List.cons_append, List.nil_append, List.cons.injEq, true_and] at same
    · exact ⟨charOf_inj.1 same.1, same.2⟩
    · exact absurd same.1 plainA
    · exact absurd same.1 plainA
    · exact absurd same.1.symm plainB
    · exact ⟨charOf_inj.1 same.1, same.2⟩
    · exact absurd same.1 plainA
    · exact absurd same.1.symm plainB
    · exact absurd same.1.symm plainB
    · exact hexPair_append_inj.1 same
  · rintro ⟨rfl, rfl⟩
    rfl

end LineGrep.Text
