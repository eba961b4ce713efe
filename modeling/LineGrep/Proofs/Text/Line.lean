import LineGrep.Text.Line

/-!
Texts cut after each line feed. A line is what stands up to a line feed, together with it; what is
left after the last line feed is a line too unless nothing is left. Main statement: there is one way
to cut a text, and it gives the lines of the text. There are as many lines that end with a line feed
as there are line feeds.
-/

namespace LineGrep.Text

variable {α : Type}

/-- A text is cut into rows, after each of its line feeds. -/
inductive Cut (lineFeed : α) : List α → List (List α) → Prop where
  | done : Cut lineFeed [] []
  | rest {row} : row ≠ [] → lineFeed ∉ row → Cut lineFeed row [row]
  | line (row) {text rows} : lineFeed ∉ row → Cut lineFeed text rows →
      Cut lineFeed (row ++ lineFeed :: text) ((row ++ [lineFeed]) :: rows)

/-- The rows of a text that a line feed ends, without the line feeds, and what is left after them. -/
structure Rows (lineFeed : α) (text : List α) (rows : List (List α)) (rest : List α) : Prop where
  eq_append : text = (rows.map (· ++ [lineFeed])).flatten ++ rest
  unbroken : ∀ row ∈ rows, lineFeed ∉ row
  rest_unbroken : lineFeed ∉ rest

variable {lineFeed x : α} {text row : List α} {rows : List (List α)}

/-- A symbol other than a line feed before a text belongs to the first line of the text. -/
theorem Cut.cons (h : Cut lineFeed text (row :: rows)) (other : x ≠ lineFeed) :
    Cut lineFeed (x :: text) ((x :: row) :: rows) := by
  cases h with
  | rest _ unbroken => exact .rest (by simp) (by simp [Ne.symm other, unbroken])
  | line row unbroken tail => exact .line (x :: row) (by simp [Ne.symm other, unbroken]) tail

/-- Rows with line feeds put after them. -/
theorem Rows.of_unbroken (unbroken : ∀ row ∈ rows, lineFeed ∉ row) :
    Rows lineFeed (rows.map (· ++ [lineFeed])).flatten rows [] :=
  ⟨(List.append_nil _).symm, unbroken, List.not_mem_nil⟩

variable [DecidableEq α]

theorem lines_cons_of_ne (other : x ≠ lineFeed) (h : lines lineFeed text = row :: rows) :
    lines lineFeed (x :: text) = (x :: row) :: rows := by
  rw [lines, if_neg other, h]

theorem lines_append_lineFeed (unbroken : lineFeed ∉ row) (text : List α) :
    lines lineFeed (row ++ lineFeed :: text) = (row ++ [lineFeed]) :: lines lineFeed text := by
  induction row with
  | nil => simp [lines]
  | cons x row ih =>
    rw [List.mem_cons, not_or] at unbroken
    obtain ⟨other, rest⟩ := unbroken
    exact lines_cons_of_ne (Ne.symm other) (ih rest)

theorem lines_of_not_mem (nonempty : row ≠ []) (unbroken : lineFeed ∉ row) :
    lines lineFeed row = [row] := by
  induction row with
  | nil => exact absurd rfl nonempty
  | cons x row ih =>
    rw [List.mem_cons, not_or] at unbroken
    obtain ⟨other, rest⟩ := unbroken
    by_cases last : row = []
    · subst last
      simp [lines, Ne.symm other]
    · exact lines_cons_of_ne (Ne.symm other) (ih last rest)

theorem cut_lines (lineFeed : α) (text : List α) : Cut lineFeed text (lines lineFeed text) := by
  induction text with
  | nil => exact .done
  | cons x text ih =>
    by_cases ends : x = lineFeed
    · subst ends
      rw [lines, if_pos rfl]
      exact .line [] (by simp) ih
    · cases cut : lines lineFeed text with
      | nil =>
        obtain rfl : text = [] := by simpa [cut] using (flatten_lines lineFeed text).symm
        rw [lines_of_not_mem (by simp) (by simp [Ne.symm ends])]
        exact .rest (by simp) (by simp [Ne.symm ends])
      | cons row rows =>
        rw [lines_cons_of_ne ends cut]
        exact (cut ▸ ih).cons ends

/-- The lines of a text are the only way to cut it. -/
theorem cut_iff : Cut lineFeed text rows ↔ rows = lines lineFeed text := by
  constructor
  · intro cut
    induction cut with
    | done => rfl
    | rest nonempty unbroken => exact (lines_of_not_mem nonempty unbroken).symm
    | line _ unbroken _ ih => rw [lines_append_lineFeed unbroken, ih]
  · rintro rfl
    exact cut_lines lineFeed text

theorem isTerminated_iff : isTerminated lineFeed row = true ↔ [lineFeed] <:+ row := by
  rw [isTerminated, beq_iff_eq, List.getLast?_eq_some_iff]
  exact ⟨fun ⟨body, same⟩ => ⟨body, same.symm⟩, fun ⟨body, same⟩ => ⟨body, same.symm⟩⟩

theorem isTerminated_of_not_mem (unbroken : lineFeed ∉ row) : isTerminated lineFeed row = false := by
  rw [← Bool.not_eq_true, isTerminated_iff]
  exact fun feed => unbroken (feed.subset (List.mem_singleton_self _))

theorem dropFinal_append_singleton (symbol : α) (row : List α) :
    dropFinal symbol (row ++ [symbol]) = row := by
  simp [dropFinal]

theorem dropFinal_eq_self_iff : dropFinal x row = row ↔ row.getLast? ≠ some x := by
  constructor
  · intro kept last
    obtain ⟨body, rfl⟩ := List.getLast?_eq_some_iff.1 last
    simp [dropFinal_append_singleton] at kept
  · intro other
    rw [dropFinal, if_neg other]

theorem mem_of_mem_dropFinal {y : α} (mem : y ∈ dropFinal x row) : y ∈ row := by
  unfold dropFinal at mem
  split at mem
  · exact (List.dropLast_prefix row).subset mem
  · exact mem

/-- A line feed can stand at the end of a line only. -/
theorem lineFeed_not_mem_dropFinal (cut : Cut lineFeed text rows) (mem : row ∈ rows) :
    lineFeed ∉ dropFinal lineFeed row := by
  induction cut with
  | done => cases mem
  | rest _ unbroken =>
    obtain rfl := List.mem_singleton.1 mem
    exact fun inside => unbroken (mem_of_mem_dropFinal inside)
  | line first unbroken _ ih =>
    rcases List.mem_cons.1 mem with rfl | later
    · rwa [dropFinal_append_singleton]
    · exact ih later

namespace Rows

variable {rest : List α}

theorem count_eq (h : Rows lineFeed text rows rest) : text.count lineFeed = rows.length := by
  obtain ⟨rfl, unbroken, rest_unbroken⟩ := h
  induction rows with
  | nil => simpa using List.count_eq_zero.2 rest_unbroken
  | cons row rows ih =>
    obtain ⟨first, others⟩ := List.forall_mem_cons.1 unbroken
    simp only [List.map_cons, List.flatten_cons, List.append_assoc, List.cons_append,
      List.nil_append, List.count_append, List.count_cons_self, List.length_cons] at ih ⊢
    rw [ih others, List.count_eq_zero.2 first, Nat.zero_add]

/-- The rows with their line feeds are the first lines. -/
theorem lines_eq (h : Rows lineFeed text rows rest) :
    lines lineFeed text = rows.map (· ++ [lineFeed]) ++ lines lineFeed rest := by
  obtain ⟨rfl, unbroken, -⟩ := h
  induction rows with
  | nil => rfl
  | cons row rows ih =>
    obtain ⟨first, others⟩ := List.forall_mem_cons.1 unbroken
    simp only [List.map_cons, List.flatten_cons, List.append_assoc, List.cons_append,
      List.nil_append] at ih ⊢
    rw [lines_append_lineFeed first, ih others]

/-- The rows with their line feeds are the lines that end with one. -/
theorem filter_lines (h : Rows lineFeed text rows rest) :
    (lines lineFeed text).filter (isTerminated lineFeed) = rows.map (· ++ [lineFeed]) := by
  have ended : ∀ row ∈ rows.map (· ++ [lineFeed]), isTerminated lineFeed row = true := by
    simp only [List.forall_mem_map]
    exact fun row _ => isTerminated_iff.2 (List.suffix_append row _)
  have unended : ∀ row ∈ lines lineFeed rest, isTerminated lineFeed row = false := by
    by_cases nothing : rest = []
    · simp [nothing, lines]
    · rw [lines_of_not_mem nothing h.rest_unbroken]
      simpa using isTerminated_of_not_mem h.rest_unbroken
  rw [h.lines_eq, List.filter_append, List.filter_eq_self.2 ended,
    List.filter_eq_nil_iff.2 (by simpa using unended), List.append_nil]

end Rows

theorem exists_rows (lineFeed : α) (text : List α) : ∃ rows rest, Rows lineFeed text rows rest := by
  obtain ⟨cuts, cut⟩ : ∃ cuts, Cut lineFeed text cuts := ⟨_, cut_lines lineFeed text⟩
  induction cut with
  | done => exact ⟨[], [], rfl, by simp, by simp⟩
  | @rest row _ unbroken => exact ⟨[], row, rfl, by simp, unbroken⟩
  | line row unbroken _ ih =>
    obtain ⟨rows, rest, rfl, others, last⟩ := ih
    exact ⟨row :: rows, rest, by simp, List.forall_mem_cons.2 ⟨unbroken, others⟩, last⟩

end LineGrep.Text
