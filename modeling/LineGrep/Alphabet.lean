/-!
The alphabet of patterns and lines: the 256 bytes. A character whose code point is below 256 stands
for the byte of that value, and every other character lies outside the alphabet. Main statement:
`byteOf?` and `charOf` are inverse to each other.
-/

namespace LineGrep

def alphabetSize : Nat := 256

/-- The byte that a character stands for, if it stands for one. -/
def byteOf? (c : Char) : Option UInt8 :=
  if c.toNat < alphabetSize then some (UInt8.ofNat c.toNat) else none

/-- The character that stands for a byte. -/
def charOf (b : UInt8) : Char :=
  Char.ofNat b.toNat

@[simp] theorem toNat_charOf (b : UInt8) : (charOf b).toNat = b.toNat := by
  have hb : b.toNat < 256 := b.toNat_lt
  have hv : b.toNat.isValidChar := Or.inl (by omega)
  unfold charOf Char.ofNat
  rw [dif_pos hv]
  exact UInt32.toNat_ofNatLT ..

@[simp] theorem byteOf?_charOf (b : UInt8) : byteOf? (charOf b) = some b := by
  have hb : b.toNat < 256 := b.toNat_lt
  simp [byteOf?, alphabetSize, hb]

theorem charOf_of_byteOf? {c : Char} {b : UInt8} (h : byteOf? c = some b) : charOf b = c := by
  unfold byteOf? at h
  split at h
  · next hc =>
    cases h
    apply Char.ext
    apply UInt32.toNat_inj.1
    show (charOf _).toNat = c.toNat
    rw [toNat_charOf]
    simp only [UInt8.toNat_ofNat']
    exact Nat.mod_eq_of_lt hc
  · cases h

theorem byteOf?_eq_some_iff {c : Char} {b : UInt8} : byteOf? c = some b ↔ c = charOf b :=
  ⟨fun h => (charOf_of_byteOf? h).symm, fun h => h ▸ byteOf?_charOf b⟩

/-- The characters outside the alphabet are those from U+0100 on. -/
theorem byteOf?_eq_none_iff {c : Char} : byteOf? c = none ↔ alphabetSize ≤ c.toNat := by
  unfold byteOf?
  split <;> simp <;> omega

theorem charOf_inj {a b : UInt8} : charOf a = charOf b ↔ a = b :=
  ⟨fun h => by simpa using congrArg byteOf? h, fun h => h ▸ rfl⟩

end LineGrep
