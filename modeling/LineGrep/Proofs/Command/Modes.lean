import LineGrep.Proofs.Command.Request
import LineGrep.Proofs.Search.Decoding
import LineGrep.Proofs.Search.Lines

/-!
The ways to show matches. A run shows the lines that match, or shows them with their numbers, or
counts them, and it may describe the search. Main statement: runs for the same pattern and text end
with the same exit code, whichever way they show matches and wherever the text is read from, and
what they write is the plain output, this output with numbers, or the number of its lines.
-/

namespace LineGrep.Command

open Source (lineFeed carriageReturn)

/-- The report that a command line leads to, where it is read and files are opened as told. -/
def reportOf (read : List (List Char) → Except Report Settings)
    (files : Option (List Char) → Except (List Char) Source) (arguments : List (List Char)) :
    Report :=
  Id.run (respond read (fun file => pure (files file)) arguments)

/-- What is opened is no text that can be read to its end. -/
def Unreadable (opened : Except (List Char) Source) : Prop :=
  ∀ bytes, opened ≠ .ok (.ofBytes bytes)

/-- An exit code, and what is written for each way to show matches. -/
structure Outcome where
  code : Nat
  plain : List Char
  numbered : List Char
  counted : List Char

namespace Outcome

/-- What is written with some of the flags: counting goes before numbering. -/
def output (o : Outcome) (lineNumbers count : Bool) : List Char :=
  if count then o.counted else if lineNumbers then o.numbered else o.plain

def failed : Outcome :=
  ⟨2, [], [], []⟩

def ofMatches (found : List LineMatch) : Outcome :=
  ⟨if found.isEmpty then 1 else 0, found.flatMap fun m => m.line ++ ['\n'],
    found.flatMap fun m => Text.decimal m.number ++ ':' :: (m.line ++ ['\n']),
    Text.decimal found.length ++ ['\n']⟩

/-- What runs for a pattern and a text come to. -/
def ofRun (pattern : List Char) (kind : SearchKind) (opened : Except (List Char) Source) :
    Outcome :=
  match Strategy.withKind pattern kind, opened with
  | .ok built, .ok ⟨bytes, none⟩ =>
    ofMatches (built.value.found 1 ((Source.ofBytes bytes).lines.map Source.decodeLine))
  | _, _ => failed

/-- The exit code tells whether a line matches. The lines of the plain output are the lines that
match, the numbered output puts their numbers before them, and the count is how many there are. -/
structure Shows (o : Outcome) (answer : List Char → Except AutomatonError Bool)
    (lines : List (List Char)) (found : List LineMatch) : Prop where
  code_eq_zero_iff : o.code = 0 ↔ ∃ line ∈ lines, answer line = .ok true
  code_eq_one_iff : o.code = 1 ↔ ∀ line ∈ lines, answer line ≠ .ok true
  plain_lines : Text.lines '\n' o.plain = found.map fun m => m.line ++ ['\n']
  numbered_eq : o.numbered =
    (List.zipWith (fun number line => Text.decimal number ++ ':' :: line)
      (found.map LineMatch.number) (Text.lines '\n' o.plain)).flatten
  counted_eq : o.counted = Text.decimal (o.plain.count '\n') ++ ['\n']

/-- The exit code and the outputs are right for a pattern and a text. -/
structure Fits (o : Outcome) (pattern : List Char) (kind : SearchKind)
    (opened : Except (List Char) Source) : Prop where
  code_eq_two_iff : o.code = 2 ↔
    (∃ e, Strategy.withKind pattern kind = .error e) ∨ Unreadable opened
  silent : o.code = 2 → o.plain = [] ∧ o.numbered = [] ∧ o.counted = []
  shows : o.code ≠ 2 → ∃ built bytes found skipped,
    Strategy.withKind pattern kind = .ok built ∧ opened = .ok (.ofBytes bytes) ∧
    let answer line := (built.value.search line).1
    let lines := (Text.lines lineFeed bytes).map fun row =>
      Text.decodeLossy (Text.stripEnding lineFeed carriageReturn row)
    Strategy.Accounted answer lines found skipped ∧ o.Shows answer lines found

section Matches

variable {answer : List Char → Except AutomatonError Bool} {lines : List (List Char)}
  {found : List LineMatch} {skipped : List (Nat × Char)}

theorem code_ofMatches_eq_zero_iff (found : List LineMatch) :
    (ofMatches found).code = 0 ↔ ∃ m, m ∈ found := by
  cases found with
  | nil => simp [ofMatches]
  | cons first _ => exact ⟨fun _ => ⟨first, List.mem_cons_self⟩, fun _ => rfl⟩

theorem code_ofMatches_eq_one_iff (found : List LineMatch) :
    (ofMatches found).code = 1 ↔ ∀ m, m ∉ found := by
  cases found with
  | nil => simp [ofMatches]
  | cons first _ =>
    exact ⟨fun code => absurd code Nat.zero_ne_one,
      fun absent => absurd List.mem_cons_self (absent first)⟩

theorem code_ofMatches_ne_two (found : List LineMatch) : (ofMatches found).code ≠ 2 := by
  cases found <;> simp [ofMatches]

theorem exists_found_iff (h : Strategy.Accounted answer lines found skipped) :
    (∃ m, m ∈ found) ↔ ∃ line ∈ lines, answer line = .ok true := by
  constructor
  · rintro ⟨m, mem⟩
    obtain ⟨i, -, place, matched⟩ := (h.mem_found_iff m).1 mem
    exact ⟨m.line, List.mem_of_getElem? place, matched⟩
  · rintro ⟨line, mem, matched⟩
    obtain ⟨i, place⟩ := List.mem_iff_getElem?.1 mem
    exact ⟨⟨i + 1, line⟩, (h.mem_found_iff _).2 ⟨i, rfl, place, matched⟩⟩

/-- Lines without line feeds are the rows of the plain output. -/
theorem rows_plain (unbroken : ∀ m ∈ found, '\n' ∉ m.line) :
    Text.Rows '\n' (ofMatches found).plain (found.map LineMatch.line) [] := by
  have same : (ofMatches found).plain =
      ((found.map LineMatch.line).map (· ++ ['\n'])).flatten := by
    rw [List.map_map]
    rfl
  rw [same]
  exact .of_unbroken (List.forall_mem_map.2 unbroken)

theorem shows_ofMatches (h : Strategy.Accounted answer lines found skipped)
    (unbroken : ∀ line ∈ lines, '\n' ∉ line) : (ofMatches found).Shows answer lines found := by
  have found_unbroken : ∀ m ∈ found, '\n' ∉ m.line := by
    intro m mem
    obtain ⟨i, -, place, -⟩ := (h.mem_found_iff m).1 mem
    exact unbroken _ (List.mem_of_getElem? place)
  have rows := rows_plain found_unbroken
  have plain_lines : Text.lines '\n' (ofMatches found).plain =
      found.map fun m => m.line ++ ['\n'] := by
    rw [rows.lines_eq, List.map_map]
    exact List.append_nil _
  refine ⟨?_, ?_, plain_lines, ?_, ?_⟩
  · rw [code_ofMatches_eq_zero_iff, exists_found_iff h]
  · rw [code_ofMatches_eq_one_iff, ← not_exists, exists_found_iff h]
    simp only [not_exists, not_and, ne_eq]
  · rw [plain_lines, List.zipWith_map, List.zipWith_self]
    rfl
  · rw [rows.count_eq, List.length_map]
    rfl

end Matches

variable {pattern : List Char} {kind : SearchKind} {opened : Except (List Char) Source}
  {built : Reported Strategy}

theorem output_failed (lineNumbers count : Bool) : failed.output lineNumbers count = [] := by
  cases lineNumbers <;> cases count <;> rfl

theorem fits_failed
    (failing : (∃ e, Strategy.withKind pattern kind = .error e) ∨ Unreadable opened) :
    failed.Fits pattern kind opened where
  code_eq_two_iff := iff_of_true rfl failing
  silent _ := ⟨rfl, rfl, rfl⟩
  shows searched := absurd rfl searched

theorem fits_ofMatches (made : Strategy.withKind pattern kind = .ok built) (bytes : List UInt8) :
    (ofMatches (built.value.found 1 ((Source.ofBytes bytes).lines.map Source.decodeLine))).Fits
      pattern kind (.ok (.ofBytes bytes)) where
  code_eq_two_iff := by
    refine iff_of_false (code_ofMatches_ne_two _) ?_
    rintro (⟨e, unmade⟩ | unreadable)
    · rw [made] at unmade
      cases unmade
    · exact unreadable bytes rfl
  silent code := absurd code (code_ofMatches_ne_two _)
  shows _ := by
    have unbroken : ∀ line ∈ (Source.ofBytes bytes).lines.map Source.decodeLine,
        '\n' ∉ line :=
      List.forall_mem_map.2 fun _ mem => Source.lineFeed_not_mem_decodeLine mem
    have accounted := built.value.accounted ((Source.ofBytes bytes).lines.map Source.decodeLine)
    exact ⟨built, bytes, _, _, made, rfl, accounted, shows_ofMatches accounted unbroken⟩

theorem fits_ofRun (pattern : List Char) (kind : SearchKind)
    (opened : Except (List Char) Source) :
    (ofRun pattern kind opened).Fits pattern kind opened := by
  unfold ofRun
  cases made : Strategy.withKind pattern kind with
  | error e => exact fits_failed (.inl ⟨e, made⟩)
  | ok built =>
    rcases opened with cause | ⟨bytes, _ | cause⟩
    · exact fits_failed (.inr fun _ same => nomatch same)
    · exact fits_ofMatches made bytes
    · exact fits_failed (.inr fun _ same => nomatch same)

end Outcome

namespace Settings

open Outcome (ofMatches ofRun)

variable {s : Settings} {read : List (List Char) → Except Report Settings}
  {arguments : List (List Char)} {files : Option (List Char) → Except (List Char) Source}

theorem showMatches_eq (s : Settings) (found : List LineMatch) :
    s.showMatches found = (ofMatches found).output s.lineNumbers s.count := by
  have shown (m : LineMatch) : s.showMatch m =
      if s.lineNumbers then Text.decimal m.number ++ ':' :: (m.line ++ ['\n'])
      else m.line ++ ['\n'] := by
    cases numbering : s.lineNumbers <;> simp [showMatch, numbering]
  unfold showMatches Outcome.output ofMatches
  rw [funext shown]
  cases s.count <;> cases s.lineNumbers <;> rfl

theorem report_of_failure (s : Settings) (strategy : Strategy) (bytes : List UInt8)
    (cause : List Char) : ∃ e : ReadError, s.report strategy (.ok ⟨bytes, some cause⟩) =
      .failure (s.notes strategy) (s.readMessage e) := by
  obtain ⟨e, stopped⟩ : ∃ e, (strategy.searchText ⟨bytes, some cause⟩).result = .error e :=
    ⟨_, (Strategy.searchLines_eq rfl (some cause) 1 _).1⟩
  exact ⟨e, by simp only [report, stopped]⟩

theorem report_of_text (s : Settings) (strategy : Strategy) (bytes : List UInt8) :
    let found := strategy.found 1 ((Source.ofBytes bytes).lines.map Source.decodeLine)
    s.report strategy (.ok (.ofBytes bytes)) =
      ⟨(ofMatches found).code, (ofMatches found).output s.lineNumbers s.count,
        s.notes strategy⟩ := by
  intro found
  have result : (strategy.searchText (.ofBytes bytes)).result = .ok found :=
    (Strategy.searchLines_eq rfl none 1 _).1
  rw [← showMatches_eq]
  simp only [report, result]
  rfl

/-- The flags of a run choose among the outputs. -/
theorem reportOf_eq (asked : read arguments = .ok s) :
    let outcome := ofRun s.pattern s.kind (files s.file)
    (reportOf read files arguments).code = outcome.code ∧
      (reportOf read files arguments).output = outcome.output s.lineNumbers s.count := by
  have performed : reportOf read files arguments =
      Id.run (s.perform fun file => pure (files file)) := by
    simp only [reportOf, respond, asked]
  intro outcome
  rw [performed]
  simp only [outcome, perform, strategy, ofRun]
  cases Strategy.withKind s.pattern s.kind with
  | error e => exact ⟨rfl, (Outcome.output_failed _ _).symm⟩
  | ok built =>
    change (s.report built.value (files s.file)).code = _ ∧
      (s.report built.value (files s.file)).output = _
    rcases files s.file with cause | ⟨bytes, _ | cause⟩
    · exact ⟨rfl, (Outcome.output_failed _ _).symm⟩
    · rw [show (⟨bytes, none⟩ : Source) = .ofBytes bytes from rfl, report_of_text]
      exact ⟨rfl, rfl⟩
    · obtain ⟨e, failed⟩ := s.report_of_failure built.value bytes cause
      rw [failed]
      exact ⟨rfl, (Outcome.output_failed _ _).symm⟩

end Settings

/-- The ways to show matches agree, for any reader that takes command lines as they are meant. Take a
pattern, a kind of search or none and what comes of opening and reading a text, be it a file or the
standard input. Then there is an exit code, and there is a plain output, a numbered one and a count;
every run ends with this code and writes one of these, as its flags tell: counting goes before
numbering, and describing the search makes no difference. The code is 2 just if there is no strategy
for the pattern or the text cannot be read, and then nothing is written. -/
theorem runs_agree {read : List (List Char) → Except Report Settings} (reads : Reads read)
    (pattern : List Char) (kind : Option SearchKind) (opened : Except (List Char) Source) :
    ∃ o : Outcome, o.Fits pattern (kind.getD .auto) opened ∧
      ∀ flags file files arguments, flags.Nodup → files file = opened →
        read arguments = read (commandLine flags kind pattern file) →
          (reportOf read files arguments).code = o.code ∧
            (reportOf read files arguments).output =
              o.output (flags.contains .lineNumbers) (flags.contains .count) := by
  refine ⟨_, Outcome.fits_ofRun pattern _ opened, ?_⟩
  rintro flags file files arguments distinct rfl same
  exact Settings.reportOf_eq (same.trans (reads flags kind pattern file distinct))

/-- The runs of the program agree, here for a pattern that begins with a dash. The text is searched,
so none of them ends with 2. -/
theorem runs_agree_dash : Reads readArguments ∧
    ∃ o : Outcome, o.Fits ['-', 'n'] .kmp (.ok (.ofBytes [0x2d, 0x6e, 0x0a])) ∧ o.code ≠ 2 ∧
      ∀ flags, flags.Nodup →
        let report := reportOf readArguments (fun _ => .ok (.ofBytes [0x2d, 0x6e, 0x0a]))
          (commandLine flags (some .kmp) ['-', 'n'] none)
        report.code = o.code ∧
          report.output = o.output (flags.contains .lineNumbers) (flags.contains .count) := by
  obtain ⟨o, fits, agree⟩ := runs_agree reads_readArguments ['-', 'n'] (some .kmp)
    (.ok (.ofBytes [0x2d, 0x6e, 0x0a]))
  have made : Strategy.withKind ['-', 'n'] .kmp =
      .ok ⟨.kmp (.ofChars ['-', 'n']), [.searchChosen ['-', 'n'] .kmp]⟩ := rfl
  have searched : o.code ≠ 2 := by
    intro failed
    rcases fits.code_eq_two_iff.1 failed with ⟨e, unmade⟩ | unreadable
    · cases made.symm.trans unmade
    · exact unreadable _ rfl
  exact ⟨reads_readArguments, o, fits, searched,
    fun flags distinct => agree flags none _ _ distinct rfl rfl⟩

end LineGrep.Command
