import LineGrep.Proofs.Text.Line
import LineGrep.Text.Utf8
import Mathlib.Algebra.Group.Nat.Defs
import Mathlib.Data.List.Basic

/-!
Lossy decoding around ASCII bytes. A sequence of several bytes, whole or cut short, ends before the
next ASCII byte and gives a character that is not in ASCII. Main statement: an ASCII byte divides a
text into two parts that are decoded apart, so a text can be cut into lines, and a line can lose its
ending, before it is decoded or after.
-/

namespace LineGrep.Text

variable {b : UInt8} {bytes : List UInt8} {bits more : Nat} {low high : UInt8}

theorem completeChar_append (narrow : b < 0x80) (wide : 0x80 ≤ low) (rest tail : List UInt8) :
    completeChar bits low high more (rest ++ b :: tail) = completeChar bits low high more rest := by
  induction more generalizing bits low high rest with
  | zero => rfl
  | succ more ih =>
    cases rest with
    | nil =>
      have outside : ¬(low ≤ b ∧ b ≤ high) := fun inside =>
        absurd (UInt8.lt_of_lt_of_le narrow wide) (UInt8.not_lt.2 inside.1)
      simp only [List.nil_append, completeChar, if_neg outside]
    | cons c rest => simp only [List.cons_append, completeChar, ih (UInt8.le_refl 0x80)]

theorem completeChar_taken_le (bits : Nat) (low high : UInt8) (more : Nat) (rest : List UInt8) :
    (completeChar bits low high more rest).2 ≤ rest.length := by
  induction more generalizing bits low high rest with
  | zero => exact Nat.zero_le _
  | succ more ih =>
    cases rest with
    | nil => exact Nat.zero_le _
    | cons c rest =>
      unfold completeChar
      split
      · exact Nat.succ_le_succ (ih _ _ _ rest)
      · exact Nat.zero_le _

/-- What a byte starts does not reach past an ASCII byte. -/
theorem firstChar_append (narrow : b < 0x80) (c : UInt8) (rest tail : List UInt8) :
    firstChar c (rest ++ b :: tail) = firstChar c rest := by
  unfold firstChar
  cases lead : Lead.ofByte c with
  | single | none => rfl
  | several => exact completeChar_append narrow (low_of_lead lead) rest tail

theorem firstChar_taken_le (c : UInt8) (rest : List UInt8) :
    (firstChar c rest).2 ≤ rest.length := by
  unfold firstChar
  cases Lead.ofByte c with
  | single | none => exact Nat.zero_le _
  | several => exact completeChar_taken_le _ _ _ _ rest

/-- An ASCII byte is decoded by itself, and what stands before it as if the text ended there. -/
theorem decodeLossy_append_ascii (narrow : b < 0x80) (front tail : List UInt8) :
    decodeLossy (front ++ b :: tail) = decodeLossy front ++ charOf b :: decodeLossy tail := by
  fun_induction decodeLossy front with
  | case1 => exact decodeLossy_ascii b tail narrow
  | case2 c rest ih =>
    rw [List.cons_append, decodeLossy_cons, firstChar_append narrow,
      List.drop_append_of_le_length (firstChar_taken_le c rest), ih, List.cons_append]

/-- A character is the replacement character, or its code point lies in a range. -/
def ReplacedOr (start stop : Nat) (c : Char) : Prop :=
  c = replacement ∨ ∃ code, c = Char.ofNat code ∧ start ≤ code ∧ code < stop

/-- Bounds on the first bits are bounds on the code point. -/
theorem ReplacedOr.of_leading {first code last : Nat} {c : Char}
    (h : ReplacedOr (code * 64 ^ more) ((code + 1) * 64 ^ more) c) (least : first ≤ code)
    (most : code ≤ last) : ReplacedOr (first * 64 ^ more) ((last + 1) * 64 ^ more) c := by
  refine h.imp_right ?_
  rintro ⟨point, same, start, stop⟩
  exact ⟨point, same, Nat.le_trans (Nat.mul_le_mul_right _ least) start,
    Nat.lt_of_lt_of_le stop (Nat.mul_le_mul_right _ (Nat.succ_le_succ most))⟩

theorem completeChar_code (bits more : Nat) (rest : List UInt8) :
    ReplacedOr (bits * 64 ^ more) ((bits + 1) * 64 ^ more)
      (completeChar bits 0x80 0xbf more rest).1 := by
  induction more generalizing bits rest with
  | zero => exact Or.inr ⟨bits, rfl, by omega, by omega⟩
  | succ more ih =>
    cases rest with
    | nil => exact Or.inl rfl
    | cons c rest =>
      unfold completeChar
      split
      · next inside =>
        have upper : c.toNat ≤ 0xbf := UInt8.le_iff_toNat_le.1 inside.2
        have stop : (bits + 1) * 64 = bits * 64 + 63 + 1 := by omega
        rw [Nat.pow_succ', ← Nat.mul_assoc, ← Nat.mul_assoc, stop]
        exact (ih (bits * 64 + (c.toNat - 0x80)) rest).of_leading (by omega) (by omega)
      · exact Or.inl rfl

/-- The bounds on the second byte are bounds on the code point. -/
theorem completeChar_succ_code (bits : Nat) (low high : UInt8) (more : Nat) (rest : List UInt8) :
    ReplacedOr ((bits * 64 + (low.toNat - 0x80)) * 64 ^ more)
      ((bits * 64 + (high.toNat - 0x80) + 1) * 64 ^ more)
      (completeChar bits low high (more + 1) rest).1 := by
  cases rest with
  | nil => exact Or.inl rfl
  | cons c rest =>
    unfold completeChar
    split
    · next inside =>
      have lower := UInt8.le_iff_toNat_le.1 inside.1
      have upper := UInt8.le_iff_toNat_le.1 inside.2
      exact (completeChar_code (bits * 64 + (c.toNat - 0x80)) more rest).of_leading (by omega)
        (by omega)
    · exact Or.inl rfl

/-- What sequences of several bytes can encode begins after ASCII, leaves out the surrogates and ends
with the last code point. -/
theorem codes_of_lead (lead : Lead.ofByte b = .several bits more low high) :
    0 < more ∧ 0x80 ≤ (bits * 64 + (low.toNat - 0x80)) * 64 ^ (more - 1) ∧
      ((bits * 64 + (high.toNat - 0x80) + 1) * 64 ^ (more - 1) ≤ 0xd800 ∨
        0xe000 ≤ (bits * 64 + (low.toNat - 0x80)) * 64 ^ (more - 1) ∧
          (bits * 64 + (high.toNat - 0x80) + 1) * 64 ^ (more - 1) ≤ 0x110000) := by
  unfold Lead.ofByte at lead
  simp only [UInt8.lt_iff_toNat_lt, ← UInt8.toNat_inj, UInt8.reduceToNat] at lead
  repeat' split at lead
  any_goals contradiction
  all_goals
    rw [Lead.several.injEq] at lead
    obtain ⟨rfl, rfl, rfl, rfl⟩ := lead
    simp only [UInt8.reduceToNat, Nat.reduceSub, Nat.reducePow]
    omega

theorem toNat_ofNat {code : Nat} (valid : code.isValidChar) : (Char.ofNat code).toNat = code := by
  rw [Char.ofNat, dif_pos valid]
  exact UInt32.toNat_ofNatLT ..

/-- A byte outside ASCII starts no ASCII character. -/
theorem le_toNat_firstChar (wide : 0x80 ≤ b) (rest : List UInt8) :
    0x80 ≤ (firstChar b rest).1.toNat := by
  unfold firstChar
  cases lead : Lead.ofByte b with
  | single =>
    unfold Lead.ofByte at lead
    grind
  | none => exact (by decide : 0x80 ≤ replacement.toNat)
  | several bits more low high =>
    obtain ⟨some, start, stop⟩ := codes_of_lead lead
    obtain ⟨more, rfl⟩ := Nat.exists_eq_add_one_of_ne_zero (Nat.ne_of_gt some)
    rw [Nat.add_sub_cancel] at start stop
    rcases completeChar_succ_code bits low high more rest with same | ⟨code, same, least, most⟩
    · simp only [same]
      decide
    · have valid : code.isValidChar := stop.imp (Nat.lt_of_lt_of_le most)
        fun ⟨first, last⟩ => ⟨by omega, by omega⟩
      simp only [same, toNat_ofNat valid]
      exact Nat.le_trans start least

/-- An ASCII character is decoded from its own byte only. -/
theorem charOf_mem_decodeLossy_iff (narrow : b < 0x80) :
    charOf b ∈ decodeLossy bytes ↔ b ∈ bytes := by
  constructor
  · intro mem
    fun_induction decodeLossy bytes with
    | case1 => cases mem
    | case2 c rest ih =>
      rcases List.mem_cons.1 mem with same | later
      · by_cases ascii : c < 0x80
        · have single : firstChar c rest = (charOf c, 0) := by simp [firstChar, Lead.ofByte, ascii]
          rw [single, charOf_inj] at same
          exact same ▸ List.mem_cons_self
        · have wide := le_toNat_firstChar (UInt8.not_lt.1 ascii) rest
          rw [← same, toNat_charOf] at wide
          exact absurd (UInt8.lt_iff_toNat_lt.1 narrow) (Nat.not_lt.2 wide)
      · exact List.mem_cons_of_mem _ (List.mem_of_mem_drop (ih later))
  · intro mem
    obtain ⟨front, tail, rfl⟩ := List.append_of_mem mem
    simp [decodeLossy_append_ascii narrow]

theorem decodeLossy_eq_nil_iff : decodeLossy bytes = [] ↔ bytes = [] := by
  cases bytes with
  | nil => simp
  | cons b rest => simp [decodeLossy_cons]

/-- A text ends with an ASCII character if it ends with the byte of it. -/
theorem getLast?_decodeLossy_iff (narrow : b < 0x80) :
    (decodeLossy bytes).getLast? = some (charOf b) ↔ bytes.getLast? = some b := by
  constructor
  · intro last
    have mem := (charOf_mem_decodeLossy_iff narrow).1 (List.mem_of_getLast? last)
    -- After the last of these bytes nothing can follow, since it would be decoded to the end.
    obtain ⟨tail, front, same, none⟩ := List.eq_append_cons_of_mem (List.mem_reverse.2 mem)
    obtain rfl : bytes = front.reverse ++ b :: tail.reverse := by
      simpa using congrArg List.reverse same
    have nothing : decodeLossy tail.reverse = [] := by
      by_contra more
      rw [decodeLossy_append_ascii narrow, List.getLast?_append_of_ne_nil _ (by simp),
        List.getLast?_cons_of_ne_nil more] at last
      have mem := (charOf_mem_decodeLossy_iff narrow).1 (List.mem_of_getLast? last)
      exact none (List.mem_reverse.1 mem)
    rw [decodeLossy_eq_nil_iff.1 nothing]
    simp
  · intro last
    obtain ⟨front, rfl⟩ := List.getLast?_eq_some_iff.1 last
    simp [decodeLossy_append_ascii narrow]

theorem dropFinal_decodeLossy (narrow : b < 0x80) (bytes : List UInt8) :
    dropFinal (charOf b) (decodeLossy bytes) = decodeLossy (dropFinal b bytes) := by
  by_cases last : bytes.getLast? = some b
  · obtain ⟨front, rfl⟩ := List.getLast?_eq_some_iff.1 last
    rw [decodeLossy_append_ascii narrow, decodeLossy_nil, dropFinal_append_singleton,
      dropFinal_append_singleton]
  · have kept := (getLast?_decodeLossy_iff narrow).not.2 last
    rw [dropFinal_eq_self_iff.2 last, dropFinal_eq_self_iff.2 kept]

variable {lineFeed carriageReturn : UInt8} {rows : List (List UInt8)}

/-- The lines of a text are decoded into the lines of the decoded text. -/
theorem Cut.decodeLossy (cut : Cut lineFeed bytes rows) (narrow : lineFeed < 0x80) :
    Cut (charOf lineFeed) (Text.decodeLossy bytes) (rows.map Text.decodeLossy) := by
  induction cut with
  | done => simpa using Cut.done
  | rest nonempty unbroken =>
    exact .rest (decodeLossy_eq_nil_iff.not.2 nonempty)
      ((charOf_mem_decodeLossy_iff narrow).not.2 unbroken)
  | line row unbroken _ ih =>
    rw [List.map_cons, decodeLossy_append_ascii narrow, decodeLossy_append_ascii narrow,
      decodeLossy_nil]
    exact .line _ ((charOf_mem_decodeLossy_iff narrow).not.2 unbroken) ih

theorem stripEnding_decodeLossy (narrow : lineFeed < 0x80) (narrow' : carriageReturn < 0x80)
    (row : List UInt8) :
    stripEnding (charOf lineFeed) (charOf carriageReturn) (decodeLossy row) =
      decodeLossy (stripEnding lineFeed carriageReturn row) := by
  rw [stripEnding, stripEnding, dropFinal_decodeLossy narrow, dropFinal_decodeLossy narrow']

end LineGrep.Text
