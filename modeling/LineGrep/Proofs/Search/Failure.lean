import LineGrep.Proofs.Search.Lines

/-!
Texts that cannot be read to their end. The lines that were read as a whole have been searched by
then, and what was read of the next one is lost. Main statement: such a search finds nothing, names
the line at which reading failed and gives the reason, has reported the skipped lines up to there,
and leaves the strategy fit for further use.
-/

namespace LineGrep

open Source (lineFeed carriageReturn)

theorem Source.readable_eq {bytes rest : List UInt8} {rows : List (List UInt8)}
    (h : Text.Rows lineFeed bytes rows rest) (cause : List Char) :
    readable ⟨bytes, some cause⟩ = rows.map (· ++ [lineFeed]) :=
  h.filter_lines

namespace Strategy

variable {s fresh : Strategy}

/-- Strategies that differ in the place of a cursor find the same in a text. -/
theorem searchText_congr (same : s.reset = fresh.reset) (source : Source) :
    (s.searchText source).result = (fresh.searchText source).result ∧
      (s.searchText source).events = (fresh.searchText source).events :=
  searchLines_congr (fun line => congrArg Prod.fst (search_congr same line)) _ _ _

/-- A text that cannot be read to its end. Whatever has been searched before, the result is the cause
together with the number of the line at which reading failed: the first after as many lines as there
are line feeds. What is found in the lines before is not given, but those of them that could not be
searched have been reported, and no other. What was read of the line itself makes no difference. The
strategy can go on to search lines and texts, and answers as it did at first. -/
theorem searchText_of_failure (s : Strategy) (earlier : List Source) (bytes : List UInt8)
    (cause : List Char) :
    let outcome := (s.afterTexts earlier).searchText ⟨bytes, some cause⟩
    let number := 1 + bytes.count lineFeed
    ∃ rows rest found skipped, Text.Rows lineFeed bytes rows rest ∧
      outcome.result = .error (.reading number cause) ∧
      (ReadError.reading number cause).message =
        "Failed to read line ".toList ++ Text.decimal number ++ ": ".toList ++ cause ∧
      outcome =
        (s.afterTexts earlier).searchText ⟨(rows.map (· ++ [lineFeed])).flatten, some cause⟩ ∧
      Accounted (fun line => (s.search line).1)
        (rows.map fun row =>
          Text.decodeLossy (Text.stripEnding lineFeed carriageReturn (row ++ [lineFeed])))
        found skipped ∧
      outcome.events = skipped.map warning ∧
      ∀ between,
        (∀ line, (outcome.strategy.afterTexts between).search line = s.search line) ∧
          ∀ later,
            ((outcome.strategy.afterTexts between).searchText later).result =
                (s.searchText later).result ∧
              ((outcome.strategy.afterTexts between).searchText later).events =
                (s.searchText later).events := by
  intro outcome number
  obtain ⟨rows, rest, parted⟩ := Text.exists_rows lineFeed bytes
  have whole := Text.Rows.of_unbroken parted.unbroken
  let lines := rows.map fun row => Source.decodeLine (row ++ [lineFeed])
  have searched : outcome = (s.afterTexts earlier).searchLines (some cause) 1 lines := by
    simp only [outcome, searchText, Source.readable_eq parted, List.map_map]
    rfl
  have alone : (s.afterTexts earlier).searchText ⟨(rows.map (· ++ [lineFeed])).flatten, some cause⟩ =
      (s.afterTexts earlier).searchLines (some cause) 1 lines := by
    simp only [searchText, Source.readable_eq whole, List.map_map]
    rfl
  obtain ⟨result, events, kept⟩ :=
    searchLines_eq (s.reset_afterTexts earlier) (some cause) 1 lines
  refine ⟨rows, rest, s.found 1 lines, s.skipped 1 lines, parted, ?_, rfl, searched.trans alone.symm,
    s.accounted lines, ?_, fun between => ?_⟩
  · rw [searched, result, List.length_map, ← parted.count_eq]
  · rw [searched, events]
  · have restored : (outcome.strategy.afterTexts between).reset = s.reset := by
      rw [reset_afterTexts, searched, kept]
    exact ⟨search_congr restored, searchText_congr restored⟩

end Strategy

end LineGrep
