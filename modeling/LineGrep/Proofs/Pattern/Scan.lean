import LineGrep.Pattern.Parse
import LineGrep.Proofs.Pattern.Reading
import Mathlib.Data.List.TakeWhile

/-!
The groups of a pattern, resolved in one pass from left to right. The rows of the open groups are
kept on a stack. A closing parenthesis resolves the innermost row, and its tree becomes an entry of
the row around it. Resolving the first group to be closed changes nothing for the pass. Main
statement: a buffer is resolved as the pass resolves it, errors included.
-/

namespace LineGrep.Pattern

open Buffer

/-- The innermost open row and the rows around it. -/
structure Scan where
  row : Buffer
  outer : List Buffer

namespace Scan

def step (s : Scan) : Item → Except ParseError Scan
  | .mark .opening => .ok ⟨[], s.row :: s.outer⟩
  | .mark .closing =>
    match s.outer with
    | [] => .error .missingLeftParen
    | enclosing :: outer =>
      if s.row.isEmpty then .error .malformedGroup
      else (resolveFlat s.row).map fun t => ⟨enclosing ++ [.tree t], outer⟩
  | item => .ok ⟨s.row ++ [item], s.outer⟩

/-- The tree of the outermost row, if no group is open. -/
def finish (s : Scan) : Except ParseError Regex :=
  if s.outer.isEmpty then resolveFlat s.row else .error .missingRightParen

def run (s : Scan) : Buffer → Except ParseError Regex
  | [] => s.finish
  | item :: rest => (s.step item).bind (run · rest)

theorem run_nil (s : Scan) : s.run [] = s.finish := rfl

@[simp] theorem run_opening (s : Scan) (rest : Buffer) :
    s.run (.mark .opening :: rest) = run ⟨[], s.row :: s.outer⟩ rest := rfl

theorem run_closing (row enclosing : Buffer) (outer : List Buffer) (rest : Buffer) :
    run ⟨row, enclosing :: outer⟩ (.mark .closing :: rest) =
      if row.isEmpty then .error .malformedGroup
      else (resolveFlat row).bind fun t => run ⟨enclosing ++ [.tree t], outer⟩ rest := by
  simp only [run, step]
  split
  · rfl
  · cases resolveFlat row <;> rfl

/-- Entries other than parentheses go to the innermost row. -/
theorem run_append_of_onlyMarks (s : Scan) {front : Buffer} (marks : OnlyMarks [.star, .bar] front)
    (rest : Buffer) : s.run (front ++ rest) = run ⟨s.row ++ front, s.outer⟩ rest := by
  induction front generalizing s with
  | nil => simp
  | cons item front ih =>
    have appended : s.step item = .ok ⟨s.row ++ [item], s.outer⟩ := by
      match item with
      | .tree t => rfl
      | .mark .star => rfl
      | .mark .bar => rfl
      | .mark .opening => exact absurd marks.head (by decide)
      | .mark .closing => exact absurd marks.head (by decide)
    rw [List.cons_append, run, appended, Except.bind, ih _ marks.tail]
    simp

/-- Nothing goes wrong before the first closing parenthesis. -/
theorem run_append_of_closing_not_mem (s : Scan) {front : Buffer}
    (notClosed : .mark .closing ∉ front) : ∃ reached : Scan,
      (∀ rest, s.run (front ++ rest) = reached.run rest) ∧
        (reached.outer = [] ↔ s.outer = [] ∧ .mark .opening ∉ front) := by
  induction front generalizing s with
  | nil => exact ⟨s, fun _ => rfl, by simp⟩
  | cons item front ih =>
    rw [List.mem_cons, not_or] at notClosed
    have stepped : ∃ next, s.step item = .ok next ∧
        (next.outer = [] ↔ s.outer = [] ∧ item ≠ .mark .opening) := by
      match item with
      | .tree t => exact ⟨_, rfl, by simp⟩
      | .mark .star => exact ⟨_, rfl, by simp⟩
      | .mark .bar => exact ⟨_, rfl, by simp⟩
      | .mark .opening => exact ⟨_, rfl, by simp⟩
      | .mark .closing => exact absurd rfl notClosed.1
    obtain ⟨next, stepEq, nextOuter⟩ := stepped
    obtain ⟨reached, runEq, reachedOuter⟩ := ih next notClosed.2
    refine ⟨reached, fun rest => ?_, ?_⟩
    · rw [List.cons_append, run, stepEq]
      exact runEq rest
    · rw [reachedOuter, nextOuter, List.mem_cons, not_or, and_assoc, ne_comm]

/-- A group whose content has no parentheses is as good as its tree. -/
theorem run_group (s : Scan) {inner : Buffer} (marks : OnlyMarks [.star, .bar] inner)
    (rest : Buffer) :
    s.run (.mark .opening :: inner ++ .mark .closing :: rest) =
      if inner.isEmpty then .error .malformedGroup
      else (resolveFlat inner).bind fun t => s.run (.tree t :: rest) := by
  rw [List.cons_append, run_opening, run_append_of_onlyMarks _ marks, List.nil_append, run_closing]
  rfl

end Scan

namespace Buffer

open Scan

/-- The tree of a buffer whose groups are resolved in one pass. -/
def scan (buffer : Buffer) : Except ParseError Regex :=
  run ⟨[], []⟩ buffer

/-- What is found when the group that is closed first is looked for. -/
inductive FirstGroup (buffer : Buffer) : Except ParseError (Option Grouped) → Prop where
  | flat : OnlyMarks [.star, .bar] buffer → FirstGroup buffer (.ok none)
  | unclosed : .mark .closing ∉ buffer → .mark .opening ∈ buffer →
      FirstGroup buffer (.error .missingRightParen)
  | unopened {front after} : OnlyMarks [.star, .bar] front →
      front ++ .mark .closing :: after = buffer → FirstGroup buffer (.error .missingLeftParen)
  | group {g} : .mark .closing ∉ g.before → OnlyMarks [.star, .bar] g.inner → g.whole = buffer →
      FirstGroup buffer (.ok (some g))

theorem onlyMarks_of_not_mem {row : Buffer} (opening : .mark .opening ∉ row)
    (closing : .mark .closing ∉ row) : OnlyMarks [.star, .bar] row := by
  intro m mem
  cases m with
  | opening => exact absurd mem opening
  | closing => exact absurd mem closing
  | star => decide
  | bar => decide

theorem takeWhile_isMark (m : Mark) (row : Buffer) :
    (.mark m ∉ row ∧ row.dropWhile (!·.isMark m) = []) ∨
      ∃ back, row.dropWhile (!·.isMark m) = .mark m :: back ∧
        row.takeWhile (!·.isMark m) ++ .mark m :: back = row := by
  have whole := List.takeWhile_append_dropWhile (p := fun item : Item => !item.isMark m) (l := row)
  have head := List.head?_dropWhile_not (fun item : Item => !item.isMark m) row
  cases h : row.dropWhile (!·.isMark m) with
  | nil =>
    refine Or.inl ⟨fun mem => ?_, rfl⟩
    have other := List.dropWhile_eq_nil_iff.1 h _ mem
    simp [Item.isMark] at other
  | cons item back =>
    rw [h] at whole head
    obtain rfl : item = .mark m := by simpa [isMark_iff] using head
    exact Or.inr ⟨back, rfl, whole⟩

theorem not_mem_takeWhile (m : Mark) (row : Buffer) : .mark m ∉ row.takeWhile (!·.isMark m) := by
  intro mem
  have other := List.mem_takeWhile_imp mem
  simp [Item.isMark] at other

theorem firstGroup_spec (buffer : Buffer) : FirstGroup buffer (firstGroup buffer) := by
  have notClosed := not_mem_takeWhile .closing buffer
  have any : buffer.any (·.isMark .opening) = true ↔ .mark .opening ∈ buffer := by
    simp [isMark_iff]
  rcases takeWhile_isMark .closing buffer with ⟨unclosed, none⟩ | ⟨after, found, whole⟩
  · rw [firstGroup, none]
    by_cases opened : .mark .opening ∈ buffer
    · simp only [any.2 opened, if_true]
      exact .unclosed unclosed opened
    · simp only [mt any.1 opened]
      exact .flat (onlyMarks_of_not_mem opened unclosed)
  · rw [firstGroup, found]
    dsimp only
    generalize buffer.takeWhile (!·.isMark .closing) = front at *
    have notOpened := not_mem_takeWhile .opening front.reverse
    rcases takeWhile_isMark .opening front.reverse with ⟨unopened, none⟩ | ⟨before, found, back⟩
    · rw [none]
      exact .unopened (onlyMarks_of_not_mem (by simpa using unopened) notClosed) whole
    · rw [found]
      dsimp only
      generalize front.reverse.takeWhile (!·.isMark .opening) = inner at *
      obtain rfl : before.reverse ++ .mark .opening :: inner.reverse = front := by
        simpa using congrArg List.reverse back
      simp only [List.mem_append, List.mem_cons, not_or] at notClosed
      refine .group notClosed.1 (onlyMarks_of_not_mem ?_ notClosed.2.2) ?_
      · simpa using notOpened
      · simpa [Grouped.whole] using whole

/-- A group is replaced by its tree with the same outcome of the pass. -/
theorem scan_rewriteGroup (buffer : Buffer) :
    match rewriteGroup buffer with
    | .error e => buffer.scan = .error e
    | .ok none => buffer.scan = resolveFlat buffer
    | .ok (some next) => buffer.scan = next.scan := by
  have found := firstGroup_spec buffer
  rw [rewriteGroup]
  generalize firstGroup buffer = result at found
  cases found with
  | flat marks =>
    have run := run_append_of_onlyMarks ⟨[], []⟩ marks []
    rw [List.append_nil] at run
    exact run
  | unclosed notClosed opened =>
    obtain ⟨reached, run, outer⟩ := run_append_of_closing_not_mem ⟨[], []⟩ notClosed
    have left : reached.outer ≠ [] := fun none => (outer.1 none).2 opened
    have finished := run []
    rw [List.append_nil] at finished
    rw [scan, finished]
    simp [run_nil, finish, left]
  | unopened marks whole =>
    rw [scan, ← whole, run_append_of_onlyMarks _ marks]
    rfl
  | @group g notClosed marks whole =>
    -- The state that the pass reaches before the group is the same with the tree in its place.
    obtain ⟨reached, run, _⟩ := run_append_of_closing_not_mem ⟨[], []⟩ notClosed
    have scanned : buffer.scan = if g.inner.isEmpty then .error .malformedGroup
        else (resolveFlat g.inner).bind fun t => reached.run (.tree t :: g.after) := by
      rw [← run_group reached marks, ← run, ← whole, Grouped.whole, List.append_assoc]
      rfl
    by_cases empty : g.inner.isEmpty
    · simpa [empty] using scanned
    · cases resolved : resolveFlat g.inner with
      | error e => simpa [empty, resolved, Except.map, Except.bind] using scanned
      | ok t =>
        rw [if_neg empty, resolved, Except.bind, ← run] at scanned
        have same : buffer.scan = (g.before ++ .tree t :: g.after).scan := scanned
        simpa [empty, resolved, Except.map] using same

/-- Resolving the groups one by one comes to resolving them in one pass. -/
theorem resolve_eq_scan (buffer : Buffer) : buffer.resolve = buffer.scan := by
  rw [resolve]
  fun_induction exhaust rewriteGroup shortens_rewriteGroup buffer with
  | case1 buffer e failed =>
    have kept := scan_rewriteGroup buffer
    rw [failed] at kept
    exact kept.symm
  | case2 buffer done =>
    have kept := scan_rewriteGroup buffer
    rw [done] at kept
    exact kept.symm
  | case3 buffer next step ih =>
    have kept := scan_rewriteGroup buffer
    rw [step] at kept
    rw [ih, kept]

end Buffer

end LineGrep.Pattern
