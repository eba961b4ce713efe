/-!
Texts as lines. A line ends with a line feed, which belongs to it, and the last line may lack one.
Main statement: the lines of a text, put one after the other, are the text.
-/

namespace LineGrep.Text

variable {α : Type} [DecidableEq α]

/-- The lines of a text, each with the line feed that ends it. -/
def lines (lineFeed : α) : List α → List (List α)
  | [] => []
  | x :: rest =>
    if x = lineFeed then [x] :: lines lineFeed rest
    else
      match lines lineFeed rest with
      | [] => [[x]]
      | line :: others => (x :: line) :: others

/-- A text without its last symbol, if that is the given one. -/
def dropFinal (symbol : α) (line : List α) : List α :=
  if line.getLast? = some symbol then line.dropLast else line

/-- A line without a final line feed, and then without a final carriage return. -/
def stripEnding (lineFeed carriageReturn : α) (line : List α) : List α :=
  dropFinal carriageReturn (dropFinal lineFeed line)

/-- Whether a line ends with its line feed. -/
def isTerminated (lineFeed : α) (line : List α) : Bool :=
  line.getLast? == some lineFeed

/-- Cutting a text into lines loses nothing. -/
theorem flatten_lines (lineFeed : α) (text : List α) :
    (lines lineFeed text).flatten = text := by
  induction text with
  | nil => rfl
  | cons x rest ih =>
    unfold lines
    split
    · simp [ih]
    · cases h : lines lineFeed rest with
      | nil => rw [h] at ih; simp at ih; simp [ih]
      | cons line others => rw [h] at ih; simpa using ih

end LineGrep.Text
