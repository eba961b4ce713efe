import LineGrep.Pattern.Group

/-!
Reading a pattern as a tree. The pattern becomes a buffer with an entry for each character; its
groups are resolved one by one, the first to be closed first, and then what is left is resolved like
the inside of a group. Main statement: the leaves of the tree are those of the buffer in order.
-/

namespace LineGrep.Pattern

def Buffer.resolve (buffer : Buffer) : Except ParseError Regex := do
  let flat ← exhaust rewriteGroup shortens_rewriteGroup buffer
  resolveFlat flat

def parse (pattern : List Char) : Except ParseError Regex :=
  if pattern.isEmpty then .error .empty
  else do
    let buffer ← Buffer.ofPattern pattern
    buffer.resolve

theorem Buffer.leaves_resolve {buffer : Buffer} {t : Regex} (h : buffer.resolve = .ok t) :
    t.leaves = buffer.leaves := by
  unfold resolve at h
  cases hf : exhaust rewriteGroup shortens_rewriteGroup buffer with
  | error => rw [hf] at h; cases h
  | ok flat => rw [hf] at h; rw [leaves_resolveFlat h, leaves_exhaust _ hf]

/-- A pattern whose characters have entries is read by resolving them. -/
theorem parse_of_ofPattern {pattern : List Char} {buffer : Buffer} (ne : pattern ≠ [])
    (h : Buffer.ofPattern pattern = .ok buffer) : parse pattern = buffer.resolve := by
  cases pattern with
  | nil => exact absurd rfl ne
  | cons c rest => simp only [parse, List.isEmpty_cons, h]; rfl

end LineGrep.Pattern
