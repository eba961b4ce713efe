import LineGrep.Proofs.Text.Line
import LineGrep.Search.Lines
import Mathlib.Data.List.Basic

/-!
Lines searched one after the other. A search leaves nothing behind but the place of a cursor, and
the next one puts the cursor back first, so each line is answered as if it were the only one. The
only error is a character outside the alphabet, which does not end the search of a text. Main
statement: whatever has been searched before, each line of a text is found, skipped with a warning
or left out, as the search of this line alone answers.
-/

namespace LineGrep

namespace Cursor

variable {c : Cursor} {text : List Char} {e : AutomatonError}

theorem outside_of_attempt_error (h : (c.attempt text).1 = .error e) :
    ∃ ch, e = .characterOutOfRange ch := by
  induction text generalizing c with
  | nil => cases h
  | cons ch rest ih =>
    rw [attempt] at h
    split at h
    · split at h
      · cases h
      · exact ih h
    · cases h
    · next cause passed moved =>
      cases h
      exact ⟨ch, (eq_of_move_eq_error moved).resolve_left passed⟩

theorem outside_of_searchHere_error (h : (c.searchHere text).1 = .error e) :
    ∃ ch, e = .characterOutOfRange ch := by
  rw [searchHere] at h
  split at h
  · cases h
  · exact outside_of_attempt_error h

theorem outside_of_search_error (h : (c.search text).1 = .error e) :
    ∃ ch, e = .characterOutOfRange ch := by
  induction text generalizing c with
  | nil => exact outside_of_searchHere_error h
  | cons ch rest ih =>
    rw [search] at h
    split at h
    · exact ih h
    · exact outside_of_searchHere_error h

end Cursor

theorem Window.outside_of_scan_error {f : Factor} {text : Array Char} {w : Window}
    {inside : w.factor ≤ w.input} {e : AutomatonError} (h : scan f text w inside = .error e) :
    ∃ ch, e = .characterOutOfRange ch := by
  fun_induction scan f text w inside with
  | case1 | case2 => cases h
  | case3 _ _ _ failed =>
    cases h
    exact step_failed failed
  | case4 _ _ _ _ ih => exact ih h

namespace Strategy

variable {s fresh : Strategy}

/-- A strategy with its cursor put back. -/
def reset : Strategy → Strategy
  | kmp f => kmp f
  | automaton c => automaton c.reset

theorem search_reset (s : Strategy) (line : List Char) : s.reset.search line = s.search line := by
  cases s with
  | kmp => rfl
  | automaton c =>
    have same : c.reset.search line = c.search line :=
      Cursor.search_congr (show c.reset.dfa = c.dfa from rfl) line
    rw [reset, search, search, same]

theorem reset_search (s : Strategy) (line : List Char) : (s.search line).2.reset = s.reset := by
  cases s with
  | kmp => rfl
  | automaton c => exact congrArg (fun dfa => automaton (.start dfa)) (c.dfa_search line)

/-- Strategies that differ in the place of a cursor answer alike. -/
theorem search_congr (same : s.reset = fresh.reset) (line : List Char) :
    s.search line = fresh.search line := by
  rw [← search_reset, same, search_reset]

/-- A line is found, not found or left at a character outside the alphabet. -/
theorem search_cases (s : Strategy) (line : List Char) :
    (s.search line).1 = .ok true ∨ (s.search line).1 = .ok false ∨
      ∃ ch, (s.search line).1 = .error (.characterOutOfRange ch) := by
  cases answer : (s.search line).1 with
  | ok found => cases found <;> simp
  | error e =>
    have outside : ∃ ch, e = .characterOutOfRange ch := by
      cases s with
      | kmp => exact Window.outside_of_scan_error answer
      | automaton => exact Cursor.outside_of_search_error answer
    obtain ⟨ch, rfl⟩ := outside
    exact Or.inr (Or.inr ⟨ch, rfl⟩)

/-- The match that a numbered line gives if it is searched on its own. -/
def matchOf (s : Strategy) (entry : List Char × Nat) : Option LineMatch :=
  match (s.search entry.1).1 with
  | .ok true => some ⟨entry.2, entry.1⟩
  | _ => none

/-- The number of a line that cannot be searched on its own, with the character at which its search
ends. -/
def skipOf (s : Strategy) (entry : List Char × Nat) : Option (Nat × Char) :=
  match (s.search entry.1).1 with
  | .error (.characterOutOfRange c) => some (entry.2, c)
  | _ => none

/-- The matches of lines that are numbered from the given number on. -/
def found (s : Strategy) (number : Nat) (lines : List (List Char)) : List LineMatch :=
  (lines.zipIdx number).filterMap s.matchOf

def skipped (s : Strategy) (number : Nat) (lines : List (List Char)) : List (Nat × Char) :=
  (lines.zipIdx number).filterMap s.skipOf

/-- The warning about a skipped line. -/
def warning (skip : Nat × Char) : Event :=
  .lineSkipped skip.1 (.characterOutOfRange skip.2)

variable {lines : List (List Char)} {line : List Char} {entry : List Char × Nat} {number n : Nat}
  {c : Char} {m : LineMatch} {skip : Nat × Char}

theorem matchOf_eq_some_iff : s.matchOf entry = some m ↔
    (s.search entry.1).1 = .ok true ∧ m = ⟨entry.2, entry.1⟩ := by
  unfold matchOf
  split
  · next answer => simp [answer, eq_comm]
  · next unfound => simpa using fun answer => absurd answer unfound

theorem skipOf_eq_some_iff : s.skipOf entry = some skip ↔
    (s.search entry.1).1 = .error (.characterOutOfRange skip.2) ∧ skip.1 = entry.2 := by
  unfold skipOf
  split
  · next answer => simp [answer, Prod.ext_iff, and_comm, eq_comm]
  · next answered => simpa using fun answer => absurd answer (answered _)

theorem mem_zipIdx_iff : (line, n) ∈ lines.zipIdx number ↔
    ∃ i, n = i + number ∧ lines[i]? = some line := by
  rw [List.mk_mem_zipIdx_iff_le_and_getElem?_sub]
  constructor
  · rintro ⟨le, place⟩
    exact ⟨n - number, by omega, place⟩
  · rintro ⟨i, rfl, place⟩
    exact ⟨Nat.le_add_left _ _, by rwa [Nat.add_sub_cancel]⟩

theorem zipIdx_ordered (lines : List (List Char)) (number : Nat) :
    (lines.zipIdx number).Pairwise fun a b => a.2 < b.2 := by
  rw [← List.pairwise_map (f := Prod.snd), List.zipIdx_map_snd]
  exact List.pairwise_lt_range'

theorem mem_found_iff : m ∈ s.found number lines ↔
    ∃ i, m.number = i + number ∧ lines[i]? = some m.line ∧ (s.search m.line).1 = .ok true := by
  simp only [found, List.mem_filterMap, matchOf_eq_some_iff]
  constructor
  · rintro ⟨⟨line, n⟩, mem, answer, rfl⟩
    obtain ⟨i, same, place⟩ := mem_zipIdx_iff.1 mem
    exact ⟨i, same, place, answer⟩
  · rintro ⟨i, same, place, answer⟩
    exact ⟨(m.line, m.number), mem_zipIdx_iff.2 ⟨i, same, place⟩, answer, rfl⟩

theorem mem_skipped_iff : skip ∈ s.skipped number lines ↔
    ∃ i line, skip.1 = i + number ∧ lines[i]? = some line ∧
      (s.search line).1 = .error (.characterOutOfRange skip.2) := by
  simp only [skipped, List.mem_filterMap, skipOf_eq_some_iff]
  constructor
  · rintro ⟨⟨line, n⟩, mem, answer, rfl⟩
    obtain ⟨i, same, place⟩ := mem_zipIdx_iff.1 mem
    exact ⟨i, line, same, place, answer⟩
  · rintro ⟨i, line, same, place, answer⟩
    exact ⟨(line, skip.1), mem_zipIdx_iff.2 ⟨i, same, place⟩, answer, rfl⟩

theorem found_ordered (s : Strategy) (number : Nat) (lines : List (List Char)) :
    (s.found number lines).Pairwise fun a b => a.number < b.number := by
  refine (zipIdx_ordered lines number).filterMap _ fun a b lt m same m' same' => ?_
  rw [(matchOf_eq_some_iff.1 same).2, (matchOf_eq_some_iff.1 same').2]
  exact lt

theorem skipped_ordered (s : Strategy) (number : Nat) (lines : List (List Char)) :
    (s.skipped number lines).Pairwise fun a b => a.1 < b.1 := by
  refine (zipIdx_ordered lines number).filterMap _ fun a b lt skip same skip' same' => ?_
  rw [(skipOf_eq_some_iff.1 same).2, (skipOf_eq_some_iff.1 same').2]
  exact lt

/-- Lines are searched as each of them is on its own. -/
theorem searchLines_eq (same : s.reset = fresh.reset) (failure : Option (List Char)) (number : Nat)
    (lines : List (List Char)) :
    (s.searchLines failure number lines).result =
        (match failure with
          | none => .ok (fresh.found number lines)
          | some cause => .error (.reading (number + lines.length) cause)) ∧
      (s.searchLines failure number lines).events = (fresh.skipped number lines).map warning ∧
      (s.searchLines failure number lines).strategy.reset = fresh.reset := by
  induction lines generalizing s number with
  | nil => cases failure <;> exact ⟨rfl, rfl, same⟩
  | cons line rest ih =>
    have left : (s.search line).2.reset = fresh.reset := by rw [reset_search, same]
    obtain ⟨result, events, kept⟩ := ih left (number + 1)
    have alike : (s.search line).1 = (fresh.search line).1 := by rw [search_congr same]
    have past : number + (line :: rest).length = number + 1 + rest.length := by
      rw [List.length_cons, Nat.add_right_comm, Nat.add_assoc]
    rw [past]
    unfold searchLines found skipped
    simp only [alike, List.zipIdx_cons, List.filterMap_cons, matchOf, skipOf]
    rcases fresh.search_cases line with answer | answer | ⟨c, answer⟩
    · simp only [answer]
      refine ⟨?_, events, kept⟩
      simp only [Findings.withMatch, result]
      cases failure <;> rfl
    · simp only [answer]
      exact ⟨result, events, kept⟩
    · simp only [answer]
      exact ⟨result, congrArg (List.cons (warning (number, c))) events, kept⟩

/-- Strategies that answer alike find the same lines and report the same ones as skipped. -/
theorem searchLines_congr (alike : ∀ line, (s.search line).1 = (fresh.search line).1)
    (failure : Option (List Char)) (number : Nat) (lines : List (List Char)) :
    (s.searchLines failure number lines).result =
        (fresh.searchLines failure number lines).result ∧
      (s.searchLines failure number lines).events =
        (fresh.searchLines failure number lines).events := by
  have matches_eq : s.matchOf = fresh.matchOf := funext fun entry => by
    rw [matchOf, matchOf, alike]
  have skips_eq : s.skipOf = fresh.skipOf := funext fun entry => by rw [skipOf, skipOf, alike]
  obtain ⟨result, events, -⟩ := searchLines_eq (s := s) rfl failure number lines
  obtain ⟨result', events', -⟩ := searchLines_eq (s := fresh) rfl failure number lines
  rw [result, result', events, events']
  simp only [found, skipped, matches_eq, skips_eq, and_self]

/-- A strategy after it has searched some lines. -/
def afterLines (s : Strategy) (lines : List (List Char)) : Strategy :=
  lines.foldl (fun s line => (s.search line).2) s

/-- The lines are handed to the search one after the other, whatever comes of them. -/
theorem strategy_searchLines (s : Strategy) (failure : Option (List Char)) (number : Nat)
    (lines : List (List Char)) :
    (s.searchLines failure number lines).strategy = s.afterLines lines := by
  induction lines generalizing s number with
  | nil => cases failure <;> rfl
  | cons line rest ih =>
    have left := ih (s.search line).2 (number + 1)
    unfold searchLines
    rcases s.search_cases line with answer | answer | ⟨c, answer⟩
    all_goals
      simp only [answer]
      exact left

/-- A strategy after it has searched some texts. -/
def afterTexts (s : Strategy) (sources : List Source) : Strategy :=
  sources.foldl (fun s source => (s.searchText source).strategy) s

theorem reset_searchText (s : Strategy) (source : Source) :
    (s.searchText source).strategy.reset = s.reset :=
  (searchLines_eq rfl _ _ _).2.2

theorem reset_afterTexts (s : Strategy) (sources : List Source) :
    (s.afterTexts sources).reset = s.reset := by
  induction sources generalizing s with
  | nil => rfl
  | cons source rest ih => exact (ih _).trans (s.reset_searchText source)

theorem severity_warning (skip : Nat × Char) : (warning skip).severity = .warning := rfl

theorem text_warning (skip : Nat × Char) : (warning skip).text =
    "Skipping line ".toList ++ Text.decimal skip.1 ++ ": Character ".toList ++
      Text.quoteChar skip.2 ++ " is outside the supported alphabet".toList := by
  have joined : ": Character ".toList = ": ".toList ++ "Character ".toList := by decide
  change "Skipping line ".toList ++ Text.decimal skip.1 ++ ": ".toList ++
    ("Character ".toList ++ Text.quoteChar skip.2 ++
      " is outside the supported alphabet".toList) = _
  rw [joined]
  simp only [List.append_assoc]

/-- What is to become of the lines of a text, given the answers to each line on its own. -/
structure Accounted (answer : List Char → Except AutomatonError Bool) (lines : List (List Char))
    (found : List LineMatch) (skipped : List (Nat × Char)) : Prop where
  found_ordered : found.Pairwise fun a b => a.number < b.number
  mem_found_iff : ∀ m, m ∈ found ↔
    ∃ i, m.number = i + 1 ∧ lines[i]? = some m.line ∧ answer m.line = .ok true
  skipped_ordered : skipped.Pairwise fun a b => a.1 < b.1
  mem_skipped_iff : ∀ skip, skip ∈ skipped ↔ ∃ i line, skip.1 = i + 1 ∧
    lines[i]? = some line ∧ answer line = .error (.characterOutOfRange skip.2)
  answered : ∀ line ∈ lines, answer line = .ok true ∨ answer line = .ok false ∨
    ∃ c, answer line = .error (.characterOutOfRange c)

theorem accounted (s : Strategy) (lines : List (List Char)) :
    Accounted (fun line => (s.search line).1) lines (s.found 1 lines) (s.skipped 1 lines) where
  found_ordered := s.found_ordered 1 lines
  mem_found_iff _ := mem_found_iff
  skipped_ordered := s.skipped_ordered 1 lines
  mem_skipped_iff _ := mem_skipped_iff
  answered line _ := s.search_cases line

/-- The search of a text that is read to its end accounts for each line once. The text is cut after
each line feed, and a line is decoded without its ending. Whatever pattern a strategy was built for
and whatever texts it has searched since, read to their ends or not, a line becomes a match with its
number, a warning with its number and the character at which it was left, or nothing at all, as the
strategy answered to this line alone when it was built. The search itself does not fail. -/
theorem searchText_accounts_for_lines (s : Strategy) (earlier : List Source) (bytes : List UInt8) :
    let outcome := (s.afterTexts earlier).searchText (.ofBytes bytes)
    ∃ rows found skipped,
      (∀ cut, Text.Cut Source.lineFeed bytes cut ↔ cut = rows) ∧
      outcome.result = .ok found ∧
      outcome.events.map (fun event => (event.severity, event.text)) =
        skipped.map (fun skip => (.warning, "Skipping line ".toList ++ Text.decimal skip.1 ++
          ": Character ".toList ++ Text.quoteChar skip.2 ++
          " is outside the supported alphabet".toList)) ∧
      Accounted (fun line => (s.search line).1)
        (rows.map fun row =>
          Text.decodeLossy (Text.stripEnding Source.lineFeed Source.carriageReturn row))
        found skipped := by
  intro outcome
  have same := s.reset_afterTexts earlier
  let lines := (Text.lines Source.lineFeed bytes).map Source.decodeLine
  obtain ⟨result, events, -⟩ := searchLines_eq same none 1 lines
  refine ⟨_, s.found 1 lines, s.skipped 1 lines, fun cut => Text.cut_iff, result, ?_,
    s.accounted lines⟩
  rw [show outcome.events = _ from events, List.map_map]
  refine List.map_congr_left fun skip _ => ?_
  rw [Function.comp_apply, severity_warning, text_warning]

end Strategy

end LineGrep
