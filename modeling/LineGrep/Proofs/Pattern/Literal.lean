import LineGrep.Proofs.Pattern.Derivation
import LineGrep.Regex.Language
import Mathlib.Data.List.Forall2
import Mathlib.Data.List.Induction

/-!
Patterns without structural characters. Such a pattern is a row of neighbours, and each of its
characters stands for one byte. Main statement: its tree denotes the words that fit it character by
character.
-/

namespace LineGrep.Pattern

/-- A character of a literal pattern fits a byte. -/
def Fits (c : Char) (b : UInt8) : Prop :=
  c = wildcard ∨ c = charOf b

/-- The words of an expression are those that fit a pattern character by character. -/
def Denotes (t : Regex) (p : List Char) : Prop :=
  ∀ w, t.Matches w ↔ List.Forall₂ Fits p w

variable {p : List Char} {t : Regex}

/-- A pattern that derives a tree has no character outside the alphabet. -/
theorem Derives.alphabet {level : Level} (h : Derives level p t) :
    ∀ c ∈ p, c.toNat < alphabetSize := by
  induction h with
  | literal value _ =>
    rw [byteOf?_eq_some_iff.1 value, List.forall_mem_singleton, toNat_charOf]
    exact UInt8.toNat_lt _
  | dot =>
    rw [List.forall_mem_singleton]
    decide
  | group _ ih =>
    intro c mem
    simp only [List.cons_append, List.mem_cons, List.mem_append, List.not_mem_nil, or_false] at mem
    rcases mem with rfl | inner | rfl
    · decide
    · exact ih c inner
    · decide
  | star _ ih =>
    intro c mem
    rcases List.mem_append.1 mem with inner | last
    · exact ih c inner
    · obtain rfl := List.mem_singleton.1 last
      decide
  | cat _ _ ihl ihr => exact fun c mem => (List.mem_append.1 mem).elim (ihl c) (ihr c)
  | alt _ _ ihl ihr =>
    intro c mem
    simp only [List.mem_append, List.mem_cons] at mem
    rcases mem with left | rfl | right
    · exact ihl c left
    · decide
    · exact ihr c right
  | ofAtom _ ih | ofRepetition _ ih | ofConcatenation _ ih => exact ih

/-- A character without structure derives an atom. -/
theorem exists_atom {c : Char} (plain : isStructural c = false) (inside : c.toNat < alphabetSize) :
    ∃ t, Derives .atom [c] t ∧ Denotes t [c] := by
  by_cases any : c = wildcard
  · subst any
    refine ⟨.dot, .dot, fun w => ?_⟩
    rw [Regex.matches_dot_iff]
    constructor
    · rintro ⟨b, rfl⟩
      exact .cons (Or.inl rfl) .nil
    · rintro (_ | ⟨_, ⟨⟩⟩)
      exact ⟨_, rfl⟩
  · cases value : byteOf? c with
    | none =>
      have outside := byteOf?_eq_none_iff.1 value
      omega
    | some b =>
      have same := byteOf?_eq_some_iff.1 value
      refine ⟨.literal b, .literal value (by simp [isOperator, any, plain]), fun w => ?_⟩
      rw [Regex.matches_literal_iff]
      constructor
      · rintro rfl
        exact .cons (Or.inr same) .nil
      · rintro (_ | ⟨fits, ⟨⟩⟩)
        have equal := charOf_inj.1 (same.symm.trans (fits.resolve_left any))
        rw [equal]

/-- Neighbours denote the words put side by side. -/
theorem Denotes.cat {q : List Char} {l r : Regex} (hl : Denotes l p) (hr : Denotes r q) :
    Denotes (.cat l r) (p ++ q) := by
  intro w
  rw [Regex.matches_cat_iff]
  constructor
  · rintro ⟨u, v, rfl, left, right⟩
    exact List.rel_append ((hl u).1 left) ((hr v).1 right)
  · intro fits
    have length := fits.length_eq
    have left := List.forall₂_take p.length fits
    have right := List.forall₂_drop p.length fits
    rw [List.take_left] at left
    rw [List.drop_left] at right
    exact ⟨_, _, (List.take_append_drop p.length w).symm, (hl _).2 left, (hr _).2 right⟩

/-- A literal pattern derives an expression for the words that fit it. -/
theorem exists_derives_of_plain (nonempty : p ≠ []) (plain : ∀ c ∈ p, isStructural c = false)
    (alphabet : ∀ c ∈ p, c.toNat < alphabetSize) :
    ∃ t, Derives .concatenation p t ∧ Denotes t p := by
  -- From the right, since neighbours associate to the left.
  induction p using List.reverseRecOn with
  | nil => exact absurd rfl nonempty
  | append_singleton p c ih =>
    obtain ⟨r, atom, last⟩ := exists_atom (plain c (by simp)) (alphabet c (by simp))
    by_cases first : p = []
    · subst first
      exact ⟨r, .ofRepetition (.ofAtom atom), last⟩
    · obtain ⟨l, front, before⟩ := ih first (fun d mem => plain d (by simp [mem]))
        fun d mem => alphabet d (by simp [mem])
      exact ⟨.cat l r, .cat front (.ofAtom atom), before.cat last⟩

theorem exists_parse_of_plain (nonempty : p ≠ []) (plain : ∀ c ∈ p, isStructural c = false)
    (alphabet : ∀ c ∈ p, c.toNat < alphabetSize) : ∃ t, parse p = .ok t ∧ Denotes t p := by
  obtain ⟨t, derives, denotes⟩ := exists_derives_of_plain nonempty plain alphabet
  exact ⟨t, (Derives.ofConcatenation derives).parse_eq, denotes⟩

end LineGrep.Pattern
