import LineGrep.Proofs.Text.Line
import LineGrep.Search.Lines
import Mathlib.Data.List.Basic

/-!
What lines lose before they are decoded. A line that ends with a line feed loses its terminator, and
nothing else. The last line of a text may lack the line feed; it has no terminator then, but it
loses a carriage return at its end. Main statement: the lines that are searched, each with its
terminator put back, give the text without a final carriage return, so they give the text exactly if
it does not end with one.
-/

namespace LineGrep

namespace Text

variable {α : Type} [DecidableEq α] {lineFeed carriageReturn symbol : α} {line text : List α}
  {rows : List (List α)}

/-- What ends a line: a line feed, together with a carriage return directly before it. A line
without a line feed at its end has no terminator. -/
def terminator (lineFeed carriageReturn : α) (line : List α) : List α :=
  if [carriageReturn, lineFeed] <:+ line then [carriageReturn, lineFeed]
  else if [lineFeed] <:+ line then [lineFeed]
  else []

/-- A line without its ending, with its terminator put back. -/
def restored (lineFeed carriageReturn : α) (line : List α) : List α :=
  stripEnding lineFeed carriageReturn line ++ terminator lineFeed carriageReturn line

/-- A line that ends with a line feed loses its terminator. -/
theorem restored_of_isTerminated (ended : isTerminated lineFeed line = true) :
    restored lineFeed carriageReturn line = line := by
  have feed := isTerminated_iff.1 ended
  obtain ⟨row, rfl⟩ := id feed
  rw [restored, stripEnding, dropFinal_append_singleton]
  by_cases last : row.getLast? = some carriageReturn
  · obtain ⟨body, rfl⟩ := List.getLast?_eq_some_iff.1 last
    have both : [carriageReturn, lineFeed] <:+ body ++ [carriageReturn] ++ [lineFeed] :=
      ⟨body, by simp⟩
    rw [dropFinal_append_singleton, terminator, if_pos both, List.append_assoc]
    rfl
  · have alone : ¬[carriageReturn, lineFeed] <:+ row ++ [lineFeed] := by
      rintro ⟨body, same⟩
      have front : body ++ [carriageReturn] = row :=
        List.append_cancel_right ((List.append_assoc ..).trans same)
      exact last (List.getLast?_eq_some_iff.2 ⟨body, front.symm⟩)
    rw [dropFinal_eq_self_iff.2 last, terminator, if_neg alone, if_pos feed]

/-- A line without a line feed at its end has no terminator. It loses a carriage return. -/
theorem ending_of_not_isTerminated (unended : isTerminated lineFeed line = false) :
    terminator lineFeed carriageReturn line = [] ∧
      stripEnding lineFeed carriageReturn line = dropFinal carriageReturn line := by
  have none : ¬[lineFeed] <:+ line := by
    rw [← isTerminated_iff, unended]
    exact Bool.false_ne_true
  constructor
  · have alone : ¬[carriageReturn, lineFeed] <:+ line :=
      fun both => none ((List.suffix_cons carriageReturn [lineFeed]).trans both)
    rw [terminator, if_neg alone, if_neg none]
  · have other : line.getLast? ≠ some lineFeed := by
      simpa [isTerminated] using unended
    rw [stripEnding, dropFinal_eq_self_iff.2 other]

theorem restored_of_not_isTerminated (unended : isTerminated lineFeed line = false) :
    restored lineFeed carriageReturn line = dropFinal carriageReturn line := by
  have bare : terminator lineFeed carriageReturn line = [] ∧
      stripEnding lineFeed carriageReturn line = dropFinal carriageReturn line :=
    ending_of_not_isTerminated unended
  rw [restored, bare.1, bare.2, List.append_nil]

/-- A final symbol that is not a line feed is final in what follows a line feed. -/
theorem dropFinal_append_cons (other : symbol ≠ lineFeed) (row text : List α) :
    dropFinal symbol (row ++ lineFeed :: text) = row ++ lineFeed :: dropFinal symbol text := by
  rcases List.eq_nil_or_concat' text with rfl | ⟨front, x, rfl⟩
  · simp [dropFinal, Ne.symm other]
  · have whole : row ++ lineFeed :: (front ++ [x]) = (row ++ lineFeed :: front) ++ [x] := by simp
    rw [whole]
    by_cases last : x = symbol
    · subst last
      rw [dropFinal_append_singleton, dropFinal_append_singleton]
    · have kept (l : List α) : dropFinal symbol (l ++ [x]) = l ++ [x] :=
        dropFinal_eq_self_iff.2 (by simpa using last)
      rw [kept, kept, whole]

namespace Cut

variable (h : Cut lineFeed text rows) (other : carriageReturn ≠ lineFeed)
include h other

/-- The lines of a text with their terminators put back give the text without a final carriage
return. -/
theorem flatten_restored :
    (rows.map (restored lineFeed carriageReturn)).flatten = dropFinal carriageReturn text := by
  induction h with
  | done => rfl
  | rest _ unbroken =>
    rw [List.map_singleton, List.flatten_singleton,
      restored_of_not_isTerminated (isTerminated_of_not_mem unbroken)]
  | line row unbroken _ ih =>
    have ended : isTerminated lineFeed (row ++ [lineFeed]) = true :=
      isTerminated_iff.2 (List.suffix_append row _)
    rw [List.map_cons, List.flatten_cons, restored_of_isTerminated ended, ih,
      dropFinal_append_cons other, List.append_assoc]
    rfl

theorem forall_restored_iff :
    (∀ row ∈ rows, restored lineFeed carriageReturn row = row) ↔
      text.getLast? ≠ some carriageReturn := by
  rw [← dropFinal_eq_self_iff]
  induction h with
  | done => simp [dropFinal]
  | rest _ unbroken =>
    rw [List.forall_mem_singleton,
      restored_of_not_isTerminated (isTerminated_of_not_mem unbroken)]
  | line row unbroken _ ih =>
    have ended : isTerminated lineFeed (row ++ [lineFeed]) = true :=
      isTerminated_iff.2 (List.suffix_append row _)
    rw [List.forall_mem_cons, ih, dropFinal_append_cons other, List.append_cancel_left_eq,
      List.cons_inj_right]
    exact and_iff_right (restored_of_isTerminated ended)

end Cut

end Text

namespace Strategy

open Source (lineFeed carriageReturn)

/-- What the lines of a text have lost when they are searched. The text is cut after each line feed,
and each line is decoded without its ending. A line that ends with a line feed has lost exactly its
terminator. The last line may lack the line feed, and has then lost a carriage return at its end. So
only the terminators are lost exactly if the text does not end with a carriage return: with the
terminators put back, the lines give the text without a final carriage return. -/
theorem searchText_strips_endings (s : Strategy) (bytes : List UInt8) :
    ∃ rows, (∀ cut, Text.Cut lineFeed bytes cut ↔ cut = rows) ∧
      s.searchText (.ofBytes bytes) = s.searchLines none 1
        (rows.map fun row => Text.decodeLossy (Text.stripEnding lineFeed carriageReturn row)) ∧
      (∀ row ∈ rows, Text.isTerminated lineFeed row = true →
        Text.restored lineFeed carriageReturn row = row) ∧
      (∀ row ∈ rows, Text.isTerminated lineFeed row = false →
        Text.terminator lineFeed carriageReturn row = [] ∧
          Text.stripEnding lineFeed carriageReturn row = Text.dropFinal carriageReturn row) ∧
      ((∀ row ∈ rows, Text.restored lineFeed carriageReturn row = row) ↔
        bytes.getLast? ≠ some carriageReturn) ∧
      (rows.map (Text.restored lineFeed carriageReturn)).flatten =
        Text.dropFinal carriageReturn bytes := by
  have cut := Text.cut_lines lineFeed bytes
  have other : carriageReturn ≠ lineFeed := by decide
  exact ⟨_, fun _ => Text.cut_iff, rfl, fun _ _ => Text.restored_of_isTerminated,
    fun _ _ => Text.ending_of_not_isTerminated, cut.forall_restored_iff other,
    cut.flatten_restored other⟩

/-- A last line without a line feed can lose a carriage return, which is no terminator. -/
theorem not_forall_restored_eq : ¬∀ bytes, ∀ row ∈ Text.lines lineFeed bytes,
    Text.restored lineFeed carriageReturn row = row := by
  intro lossless
  have kept := lossless [97, carriageReturn] [97, carriageReturn] (by decide)
  exact absurd kept (by decide)

end Strategy

end LineGrep
