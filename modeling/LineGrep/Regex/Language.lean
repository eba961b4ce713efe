import LineGrep.Regex.Basic

/-!
The language of a regular expression: the byte words that it denotes. Main statements say when a
word belongs to the language of each kind of node.
-/

namespace LineGrep.Regex

/-- A word belongs to the language of an expression. -/
inductive Matches : Regex → List UInt8 → Prop where
  | literal (b : UInt8) : Matches (.literal b) [b]
  | dot (b : UInt8) : Matches .dot [b]
  | cat {left right u v} : Matches left u → Matches right v → Matches (.cat left right) (u ++ v)
  | altLeft {left right u} : Matches left u → Matches (.alt left right) u
  | altRight {left right u} : Matches right u → Matches (.alt left right) u
  | starNil {body} : Matches (.star body) []
  | starAppend {body u v} : Matches body u → Matches (.star body) v →
      Matches (.star body) (u ++ v)

theorem matches_literal_iff {b : UInt8} {w : List UInt8} : Matches (.literal b) w ↔ w = [b] :=
  ⟨fun h => by cases h; rfl, fun h => h ▸ .literal b⟩

theorem matches_dot_iff {w : List UInt8} : Matches .dot w ↔ ∃ b, w = [b] :=
  ⟨fun h => by cases h; exact ⟨_, rfl⟩, fun ⟨b, h⟩ => h ▸ .dot b⟩

theorem matches_cat_iff {left right : Regex} {w : List UInt8} :
    Matches (.cat left right) w ↔ ∃ u v, w = u ++ v ∧ Matches left u ∧ Matches right v :=
  ⟨fun h => by cases h with | cat hu hv => exact ⟨_, _, rfl, hu, hv⟩,
    fun ⟨_, _, h, hu, hv⟩ => h ▸ .cat hu hv⟩

theorem matches_alt_iff {left right : Regex} {w : List UInt8} :
    Matches (.alt left right) w ↔ Matches left w ∨ Matches right w :=
  ⟨fun h => by
    cases h with
    | altLeft h => exact Or.inl h
    | altRight h => exact Or.inr h,
  fun h => h.elim .altLeft .altRight⟩

/-- The words of a repetition are those of the body put one after the other. -/
theorem matches_star_iff {body : Regex} {w : List UInt8} :
    Matches (.star body) w ↔ ∃ words : List (List UInt8),
      w = words.flatten ∧ ∀ u ∈ words, Matches body u := by
  constructor
  · intro h
    generalize ht : Regex.star body = t at h
    induction h with
    | starNil => exact ⟨[], rfl, by simp⟩
    | starAppend hu _ _ ih =>
      cases ht
      obtain ⟨words, rfl, hw⟩ := ih rfl
      refine ⟨_ :: words, rfl, ?_⟩
      simp only [List.mem_cons]
      rintro _ (rfl | mem)
      · exact hu
      · exact hw _ mem
    | literal | dot | cat | altLeft | altRight => cases ht
  · rintro ⟨words, rfl, hw⟩
    induction words with
    | nil => exact .starNil
    | cons u words ih =>
      exact .starAppend (hw u (by simp)) (ih fun v hv => hw v (by simp [hv]))

end LineGrep.Regex
