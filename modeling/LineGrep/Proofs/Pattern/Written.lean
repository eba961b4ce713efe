import LineGrep.Pattern.Written
import LineGrep.Proofs.Pattern.Derivation

/-!
Trees that are written as patterns and read again. A written operand stands in parentheses and is an
atom, so what is written of a tree derives it, whatever the tree is made of. Main statement: a tree
has a pattern unless one of its literals is an operator, and reading the pattern gives the tree back.
-/

namespace LineGrep

namespace Regex

/-- No literal of a tree is an operator. -/
def Plain (t : Regex) : Prop :=
  ∀ b, Leaf.literal b ∈ t.leaves → Pattern.isOperator (charOf b) = false

theorem plain_literal_iff {b : UInt8} :
    (literal b).Plain ↔ Pattern.isOperator (charOf b) = false := by
  simp [Plain, leaves]

theorem plain_dot : dot.Plain := by
  simp [Plain, leaves]

theorem plain_cat_iff {left right : Regex} :
    (cat left right).Plain ↔ left.Plain ∧ right.Plain := by
  simp only [Plain, leaves, List.mem_append, or_imp, forall_and]

theorem plain_alt_iff {left right : Regex} :
    (alt left right).Plain ↔ left.Plain ∧ right.Plain := by
  simp only [Plain, leaves, List.mem_append, or_imp, forall_and]

/-- Two operands are written if both have a pattern. -/
theorem exists_written_iff {left right : Option (List Char)}
    {join : List Char → List Char → List Char} :
    (∃ p, (do let l ← left; let r ← right; return join l r) = some p) ↔
      (∃ l, left = some l) ∧ ∃ r, right = some r := by
  cases left <;> cases right <;> simp

theorem written_eq_some_iff {left right : Option (List Char)}
    {join : List Char → List Char → List Char} {p : List Char} :
    (do let l ← left; let r ← right; return join l r) = some p ↔
      ∃ l r, left = some l ∧ right = some r ∧ join l r = p := by
  cases left <;> cases right <;> simp

/-- A tree can be written just in case no literal is an operator. -/
theorem exists_toPattern?_iff {t : Regex} : (∃ p, t.toPattern? = some p) ↔ t.Plain := by
  induction t with
  | literal b =>
    rw [plain_literal_iff, toPattern?]
    cases Pattern.isOperator (charOf b) <;> simp
  | dot => exact iff_of_true ⟨_, rfl⟩ plain_dot
  | cat left right ihl ihr => rw [plain_cat_iff, ← ihl, ← ihr, toPattern?, exists_written_iff]
  | alt left right ihl ihr => rw [plain_alt_iff, ← ihl, ← ihr, toPattern?, exists_written_iff]
  | star body ih =>
    have same : (star body).Plain ↔ body.Plain := Iff.rfl
    rw [same, ← ih, toPattern?]
    simp only [Option.map_eq_some_iff, exists_comm, exists_and_left, exists_eq', and_true]

end Regex

namespace Pattern

/-- What is written of a tree derives the tree. -/
theorem derives_of_toPattern? {t : Regex} {p : List Char} (h : t.toPattern? = some p) :
    Derives .alternation p t := by
  induction t generalizing p with
  | literal b =>
    have plain := Regex.plain_literal_iff.1 (Regex.exists_toPattern?_iff.1 ⟨p, h⟩)
    rw [Regex.toPattern?, plain] at h
    cases h
    exact .ofConcatenation (.ofRepetition (.ofAtom (.literal (byteOf?_charOf b) plain)))
  | dot =>
    cases h
    exact .ofConcatenation (.ofRepetition (.ofAtom .dot))
  | cat left right ihl ihr =>
    obtain ⟨l, r, hl, hr, rfl⟩ := Regex.written_eq_some_iff.1 h
    have first : Derives .atom (Regex.group l) left := .group (ihl hl)
    have second : Derives .atom (Regex.group r) right := .group (ihr hr)
    exact .ofConcatenation (.cat (.ofRepetition (.ofAtom first)) (.ofAtom second))
  | alt left right ihl ihr =>
    obtain ⟨l, r, hl, hr, rfl⟩ := Regex.written_eq_some_iff.1 h
    have first : Derives .atom (Regex.group l) left := .group (ihl hl)
    have second : Derives .atom (Regex.group r) right := .group (ihr hr)
    exact .alt (.ofConcatenation (.ofRepetition (.ofAtom first))) (.ofRepetition (.ofAtom second))
  | star body ih =>
    obtain ⟨q, hq, rfl⟩ := Option.map_eq_some_iff.1 h
    have inner : Derives .atom (Regex.group q) body := .group (ih hq)
    exact .ofConcatenation (.ofRepetition (.star (.ofAtom inner)))

/-- No literal that a pattern derives is an operator. -/
theorem Derives.plain {level : Level} {p : List Char} {t : Regex} (h : Derives level p t) :
    t.Plain := by
  induction h with
  | literal value plain =>
    rw [Regex.plain_literal_iff, charOf_of_byteOf? value]
    exact plain
  | dot => exact Regex.plain_dot
  | cat _ _ ihl ihr => exact Regex.plain_cat_iff.2 ⟨ihl, ihr⟩
  | alt _ _ ihl ihr => exact Regex.plain_alt_iff.2 ⟨ihl, ihr⟩
  | group _ ih | ofAtom _ ih | star _ ih | ofRepetition _ ih | ofConcatenation _ ih => exact ih

theorem isOperator_iff {c : Char} : isOperator c = true ↔ c ∈ ['.', '*', '|', '(', ')'] := by
  simp only [isOperator, isStructural, Bool.or_eq_true, decide_eq_true_eq, or_assoc, List.mem_cons,
    List.not_mem_nil, or_false]
  exact Iff.rfl

/-- A tree has no pattern just in case one of its literals is an operator, and else reading its
pattern gives the tree back. Each tree that is read of some pattern has such a pattern. -/
theorem parse_toPattern_eq (t : Regex) :
    (t.toPattern? = none ↔
      ∃ b, Regex.Leaf.literal b ∈ t.leaves ∧ charOf b ∈ ['.', '*', '|', '(', ')']) ∧
      (t.toPattern? = none ∨ ∃ p, t.toPattern? = some p ∧ parse p = .ok t) ∧
      ∀ q, parse q = .ok t → ∃ p, t.toPattern? = some p ∧ parse p = .ok t := by
  refine ⟨?_, ?_, fun q read => ?_⟩
  · have unwritten : t.toPattern? = none ↔ ¬t.Plain := by
      rw [← Regex.exists_toPattern?_iff, Option.eq_none_iff_forall_ne_some, not_exists]
    simp [unwritten, Regex.Plain, isOperator_iff]
  · cases written : t.toPattern? with
    | none => exact Or.inl rfl
    | some p => exact Or.inr ⟨p, rfl, (derives_of_toPattern? written).parse_eq⟩
  · obtain ⟨p, written⟩ := Regex.exists_toPattern?_iff.2 (derives_of_parse_eq read).plain
    exact ⟨p, written, (derives_of_toPattern? written).parse_eq⟩

theorem parse_toPattern_high_byte :
    parse ['\xff', '|', '.', '*'] = .ok (.alt (.literal 0xff) (.star .dot)) ∧
      ∃ p, (Regex.alt (.literal 0xff) (.star .dot)).toPattern? = some p ∧
        parse p = .ok (.alt (.literal 0xff) (.star .dot)) := by
  have left : Derives .atom ['\xff'] (.literal 0xff) := .literal rfl rfl
  have right : Derives .repetition ['.', '*'] (.star .dot) := .star (.ofAtom .dot)
  have read := (Derives.alt (.ofConcatenation (.ofRepetition (.ofAtom left)))
    (.ofRepetition right)).parse_eq
  exact ⟨read, (parse_toPattern_eq _).2.2 _ read⟩

end Pattern

end LineGrep
