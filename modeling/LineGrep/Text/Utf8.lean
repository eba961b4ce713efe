import LineGrep.Alphabet

/-!
Reading bytes as UTF-8 without ever failing. A well-formed sequence gives its character, and each
maximal part of an ill-formed one, that is a byte that starts no sequence or a proper beginning of a
well-formed sequence that does not go on, gives one replacement character. Main statement: a byte
below 0x80 at the beginning is decoded by itself.
-/

namespace LineGrep.Text

/-- The character that stands for an ill-formed part. -/
def replacement : Char := '\ufffd'

/-- What the first byte of a sequence announces. -/
inductive Lead where
  | single
  /-- More bytes have to follow, the first of them between two bounds; `bits` are the bits of the
  code point in the first byte. -/
  | several (bits more : Nat) (low high : UInt8)
  | none
  deriving DecidableEq

/-- The sequences that a first byte can start. The bounds on the second byte leave out what shorter
sequences encode, the surrogates and what lies beyond the last code point. -/
def Lead.ofByte (b : UInt8) : Lead :=
  if b < 0x80 then .single
  else if b < 0xc2 then .none
  else if b < 0xe0 then .several (b.toNat - 0xc0) 1 0x80 0xbf
  else if b = 0xe0 then .several 0 2 0xa0 0xbf
  else if b = 0xed then .several 0xd 2 0x80 0x9f
  else if b < 0xf0 then .several (b.toNat - 0xe0) 2 0x80 0xbf
  else if b = 0xf0 then .several 0 3 0x90 0xbf
  else if b < 0xf4 then .several (b.toNat - 0xf0) 3 0x80 0xbf
  else if b = 0xf4 then .several 4 3 0x80 0x8f
  else .none

/-- The character that the next `more` bytes complete, of which the first lies between the bounds,
and the number of these bytes that belong to it. -/
def completeChar (bits : Nat) (low high : UInt8) : Nat → List UInt8 → Char × Nat
  | 0, _ => (Char.ofNat bits, 0)
  | _ + 1, [] => (replacement, 0)
  | more + 1, b :: rest =>
    if low ≤ b ∧ b ≤ high then
      let (c, taken) := completeChar (bits * 64 + (b.toNat - 0x80)) 0x80 0xbf more rest
      (c, taken + 1)
    else (replacement, 0)

/-- The character that a byte starts, and the number of the bytes after it that belong to it. -/
def firstChar (b : UInt8) (rest : List UInt8) : Char × Nat :=
  match Lead.ofByte b with
  | .single => (charOf b, 0)
  | .several bits more low high => completeChar bits low high more rest
  | .none => (replacement, 0)

/-- The characters of a byte text, with a replacement character for each ill-formed part. -/
def decodeLossy : List UInt8 → List Char
  | [] => []
  | b :: rest => (firstChar b rest).1 :: decodeLossy (rest.drop (firstChar b rest).2)
termination_by bytes => bytes.length
decreasing_by simp only [List.length_drop, List.length_cons]; omega

@[simp] theorem decodeLossy_nil : decodeLossy [] = [] := by
  simp [decodeLossy]

theorem decodeLossy_cons (b : UInt8) (rest : List UInt8) :
    decodeLossy (b :: rest) =
      (firstChar b rest).1 :: decodeLossy (rest.drop (firstChar b rest).2) := by
  rw [decodeLossy]

theorem low_of_lead {b low high : UInt8} {bits more : Nat}
    (h : Lead.ofByte b = .several bits more low high) : 0x80 ≤ low := by
  unfold Lead.ofByte at h
  grind

/-- An ASCII byte is decoded by itself. -/
theorem decodeLossy_ascii (b : UInt8) (rest : List UInt8) (h : b < 0x80) :
    decodeLossy (b :: rest) = charOf b :: decodeLossy rest := by
  have : firstChar b rest = (charOf b, 0) := by simp [firstChar, Lead.ofByte, h]
  rw [decodeLossy_cons, this, List.drop_zero]

end LineGrep.Text
