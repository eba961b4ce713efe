import LineGrep.Proofs.Search.Lines
import LineGrep.Proofs.Text.Utf8

/-!
Lines decoded one by one. A search cuts the bytes of a text into lines and decodes each of them on
its own, without its ending. Main statement: it might as well decode the whole text, cut what comes
of it and drop the endings there. So whatever the bytes are, line breaks stay where they were and
every line keeps its number.
-/

namespace LineGrep

open Source (lineFeed carriageReturn)

variable {bytes line : List UInt8}

/-- A line that is decoded without its ending is the decoded line without its ending. -/
theorem Source.decodeLine_eq (line : List UInt8) :
    decodeLine line = Text.stripEnding '\n' '\r' (Text.decodeLossy line) := by
  have narrow : lineFeed < 0x80 := by decide
  have narrow' : carriageReturn < 0x80 := by decide
  exact (Text.stripEnding_decodeLossy narrow narrow' line).symm

/-- The lines that are searched hold no line feed. -/
theorem Source.lineFeed_not_mem_decodeLine (mem : line ∈ Text.lines lineFeed bytes) :
    '\n' ∉ decodeLine line := by
  have narrow : lineFeed < 0x80 := by decide
  intro inside
  have stays := (Text.charOf_mem_decodeLossy_iff narrow).1 inside
  exact Text.lineFeed_not_mem_dropFinal (Text.cut_lines lineFeed bytes) mem
    (Text.mem_of_mem_dropFinal stays)

/-- Lines may be cut from the bytes of a text or from its characters. The rows of bytes between line
feeds are decoded into the pieces between the line feeds of the decoded text, in their order and
with nothing in between. These pieces without their endings are the lines that the strategy is
handed one after the other, and each of them is accounted for with its place among the pieces as its
number. -/
theorem Strategy.searchText_decodes_by_line (s : Strategy) (bytes : List UInt8) :
    let outcome := s.searchText (.ofBytes bytes)
    ∃ rows pieces found skipped, (∀ cut, Text.Cut lineFeed bytes cut ↔ cut = rows) ∧
      (∀ cut, Text.Cut '\n' (Text.decodeLossy bytes) cut ↔ cut = pieces) ∧
      rows.map Text.decodeLossy = pieces ∧
      rows.map (fun row => Text.decodeLossy (Text.stripEnding lineFeed carriageReturn row)) =
        pieces.map (Text.stripEnding '\n' '\r') ∧
      outcome.result = .ok found ∧ outcome.events = skipped.map warning ∧
      Accounted (fun line => (s.search line).1) (pieces.map (Text.stripEnding '\n' '\r'))
        found skipped ∧
      outcome.strategy = s.afterLines (pieces.map (Text.stripEnding '\n' '\r')) := by
  intro outcome
  let rows := Text.lines lineFeed bytes
  let pieces := rows.map Text.decodeLossy
  let lines := pieces.map (Text.stripEnding '\n' '\r')
  have decoded : Text.Cut '\n' (Text.decodeLossy bytes) pieces :=
    (Text.cut_lines lineFeed bytes).decodeLossy (by decide)
  have stripped : rows.map Source.decodeLine =
      (rows.map Text.decodeLossy).map (Text.stripEnding '\n' '\r') := by
    rw [List.map_map]
    exact List.map_congr_left fun row _ => Source.decodeLine_eq row
  have searched : outcome = s.searchLines none 1 lines :=
    congrArg (s.searchLines none 1) stripped
  obtain ⟨result, events, -⟩ := searchLines_eq (s := s) rfl none 1 lines
  refine ⟨rows, pieces, s.found 1 lines, s.skipped 1 lines, fun _ => Text.cut_iff, fun _ => ?_, rfl,
    stripped, ?_, ?_, s.accounted lines, ?_⟩
  · rw [Text.cut_iff, Text.cut_iff.1 decoded]
  · rw [searched, result]
  · rw [searched, events]
  · rw [searched, strategy_searchLines]

end LineGrep
