import LineGrep.Alphabet

/-!
Texts over the alphabet, read as words of bytes. Main statement: a text whose characters lie in the
alphabet is the text of its bytes.
-/

namespace LineGrep

/-- The bytes that the characters of a text stand for. -/
def bytesOf (text : List Char) : List UInt8 :=
  text.filterMap byteOf?

@[simp] theorem bytesOf_map_charOf (w : List UInt8) : bytesOf (w.map charOf) = w := by
  induction w with
  | nil => rfl
  | cons b w ih =>
    rw [List.map_cons, bytesOf, List.filterMap_cons, byteOf?_charOf]
    exact congrArg (b :: ·) ih

theorem map_charOf_bytesOf {text : List Char} (h : ∀ c ∈ text, c.toNat < alphabetSize) :
    (bytesOf text).map charOf = text := by
  induction text with
  | nil => rfl
  | cons c text ih =>
    obtain ⟨inside, rest⟩ := List.forall_mem_cons.1 h
    cases hb : byteOf? c with
    | none => exact absurd (byteOf?_eq_none_iff.1 hb) (by omega)
    | some b =>
      rw [bytesOf, List.filterMap_cons, hb, List.map_cons, charOf_of_byteOf? hb]
      exact congrArg (c :: ·) (ih rest)

end LineGrep
