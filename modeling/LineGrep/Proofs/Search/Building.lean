import LineGrep.Command.Report
import LineGrep.Proofs.Pattern.Fault
import LineGrep.Proofs.Pattern.Literal
import LineGrep.Proofs.Search.Literal

/-!
Building strategies and reading patterns. A literal is checked by rules of its own: it needs
characters, it has no structure, and it stays in the alphabet. Without structure a pattern is a row
of neighbours, so it can always be read if it passes these checks. Main statement: a strategy cannot
be built for the same reason for which the pattern cannot be read, unless a literal is asked for and
the pattern has structure.
-/

namespace LineGrep

open Pattern (ParseError)

namespace Factor

variable {pattern : List Char}

theorem isLiteral_eq_false_iff : isLiteral pattern = false ↔
    ∃ c ∈ pattern, c = '*' ∨ c = '|' ∨ c = '(' ∨ c = ')' := by
  simp [isLiteral, Pattern.isStructural, or_assoc]

theorem find?_outside (pattern : List Char) :
    (pattern.find? fun c => (byteOf? c).isNone) =
      pattern.find? fun c => alphabetSize ≤ c.toNat := by
  congr 1
  funext c
  rw [Bool.eq_iff_iff, Option.isNone_iff_eq_none, byteOf?_eq_none_iff, decide_eq_true_iff]

/-- A pattern without structure can be searched as a literal if it can be read, and it has the same
fault if not. -/
theorem ofPattern_of_isLiteral (literal : isLiteral pattern = true) : ofPattern pattern =
    match Pattern.parse pattern with
    | .ok _ => .ok (ofChars pattern)
    | .error e => .error (.parse e) := by
  by_cases empty : pattern = []
  · subst empty
    rfl
  rw [ofPattern, if_neg (mt List.isEmpty_iff.1 empty), if_neg (by simp [literal]), find?_outside]
  cases outside : pattern.find? fun c => alphabetSize ≤ c.toNat with
  | some c =>
    have fault := Pattern.errorOf_parse pattern
    rw [Pattern.fault?, if_neg (mt List.isEmpty_iff.1 empty), outside] at fault
    rw [Pattern.errorOf_eq_some_iff.1 fault]
  | none =>
    have alphabet : ∀ c ∈ pattern, c.toNat < alphabetSize := by
      simpa [List.find?_eq_none] using outside
    obtain ⟨t, parsed, -⟩ :=
      Pattern.exists_parse_of_plain empty (isLiteral_iff.1 literal) alphabet
    rw [parsed]

/-- The only faults of a pattern without structure. -/
theorem parse_eq_error_iff_of_isLiteral (literal : isLiteral pattern = true) {e : ParseError} :
    Pattern.parse pattern = .error e ↔ pattern = [] ∧ e = .empty ∨
      ∃ c, (pattern.find? fun c => alphabetSize ≤ c.toNat) = some c ∧
        e = .unsupportedCharacter c := by
  have same : Pattern.parse pattern = .error e ↔ ofPattern pattern = .error (.parse e) := by
    rw [ofPattern_of_isLiteral literal]
    cases Pattern.parse pattern <;> simp
  rw [same, ofPattern, find?_outside]
  by_cases empty : pattern = []
  · simpa [empty] using eq_comm
  · cases pattern.find? fun c => alphabetSize ≤ c.toNat with
    | none => simp [empty, literal]
    | some c => simpa [empty, literal] using eq_comm

end Factor

namespace Strategy

variable {pattern : List Char} {kind : SearchKind} {answer : Except SearchError (Reported Strategy)}

/-- Building a strategy comes to what reading the pattern comes to: the same error, or else a
strategy of the given kind. -/
structure FollowsParse (pattern : List Char) (kind : SearchKind)
    (answer : Except SearchError (Reported Strategy)) : Prop where
  error_iff : ∀ e, answer = .error e ↔
    ∃ cause, e = .parse cause ∧ Pattern.parse pattern = .error cause
  ok_of_parse : ∀ t, Pattern.parse pattern = .ok t →
    ∃ built, answer = .ok built ∧ built.value.kind = kind

theorem FollowsParse.of_error {cause : ParseError} (failed : Pattern.parse pattern = .error cause)
    (same : answer = .error (.parse cause)) : FollowsParse pattern kind answer := by
  refine ⟨fun e => ?_, fun t parsed => ?_⟩
  · rw [same, failed]
    simp only [Except.error.injEq]
    constructor
    · rintro rfl
      exact ⟨cause, rfl, rfl⟩
    · rintro ⟨_, rfl, rfl⟩
      rfl
  · rw [failed] at parsed
    cases parsed

theorem FollowsParse.of_ok {t : Regex} {built : Reported Strategy}
    (parsed : Pattern.parse pattern = .ok t) (same : answer = .ok built)
    (chosen : built.value.kind = kind) : FollowsParse pattern kind answer := by
  refine ⟨fun e => ?_, fun _ _ => ⟨built, same, chosen⟩⟩
  simp [same, parsed]

/-- A strategy in use for a pattern that is read as a tree: the pattern as a literal, or a cursor
somewhere on the automaton of the tree. -/
inductive Serves (pattern : List Char) (t : Regex) : Strategy → Prop where
  | kmp : Factor.isLiteral pattern = true → Serves pattern t (.kmp (.ofChars pattern))
  | automaton {c : Cursor} : c.dfa = Dfa.ofNfa (.ofRegex t) → Serves pattern t (.automaton c)

/-- The choice is never left open. -/
theorem kindFor_cases (pattern : List Char) (kind : SearchKind) :
    kindFor pattern kind = .kmp ∨ kindFor pattern kind = .automaton := by
  cases kind with
  | auto =>
    unfold kindFor
    split <;> simp
  | automaton => exact Or.inr rfl
  | kmp => exact Or.inl rfl

/-- A pattern that can be read is built into a strategy of the kind that is chosen for it, unless it
has structure and is to be a literal. -/
theorem exists_withKind_of_parse {t : Regex} (parsed : Pattern.parse pattern = .ok t)
    (kind : SearchKind)
    (allowed : kindFor pattern kind = .kmp → Factor.isLiteral pattern = true) :
    ∃ built, withKind pattern kind = .ok built ∧ built.value.kind = kindFor pattern kind ∧
      Serves pattern t built.value := by
  unfold withKind build
  rcases kindFor_cases pattern kind with chosen | chosen
  · rw [chosen, Factor.ofPattern_of_isLiteral (allowed chosen), parsed]
    exact ⟨_, rfl, rfl, .kmp (allowed chosen)⟩
  · rw [chosen, Automaton.compile, parsed]
    exact ⟨_, rfl, rfl, .automaton rfl⟩

theorem withKind_of_parse_error {cause : ParseError} (failed : Pattern.parse pattern = .error cause)
    (allowed : kindFor pattern kind = .kmp → Factor.isLiteral pattern = true) :
    withKind pattern kind = .error (.parse cause) := by
  unfold withKind build
  rcases kindFor_cases pattern kind with chosen | chosen
  · rw [chosen, Factor.ofPattern_of_isLiteral (allowed chosen), failed]
    rfl
  · rw [chosen, Automaton.compile, failed]
    rfl

theorem followsParse_withKind (kind : SearchKind)
    (allowed : kindFor pattern kind = .kmp → Factor.isLiteral pattern = true) :
    FollowsParse pattern (kindFor pattern kind) (withKind pattern kind) := by
  cases parsed : Pattern.parse pattern with
  | error cause => exact .of_error parsed (withKind_of_parse_error parsed allowed)
  | ok t =>
    obtain ⟨built, made, chosen, -⟩ := exists_withKind_of_parse parsed kind allowed
    exact .of_ok parsed made chosen

/-- A literal is refused for the structure of the pattern before anything else is looked at. -/
theorem withKind_kmp_of_structural (structured : Factor.isLiteral pattern = false) :
    withKind pattern .kmp = .error (.notLiteral pattern) := by
  have nonempty : pattern ≠ [] := by
    rintro rfl
    cases structured
  simp [withKind, build, kindFor, Factor.ofPattern, structured, nonempty, Except.map]

/-- A strategy is only ever built for a pattern that can be read, and serves for it. -/
theorem exists_parse_of_withKind {built : Reported Strategy}
    (made : withKind pattern kind = .ok built) :
    ∃ t, Pattern.parse pattern = .ok t ∧ Serves pattern t built.value := by
  have allowed : kindFor pattern kind = .kmp → Factor.isLiteral pattern = true := by
    intro chosen
    by_contra structured
    rw [Bool.not_eq_true] at structured
    cases kind with
    | kmp => simp [withKind_kmp_of_structural structured] at made
    | auto => simp [kindFor, structured] at chosen
    | automaton => cases chosen
  cases parsed : Pattern.parse pattern with
  | error cause => simp [withKind_of_parse_error parsed allowed] at made
  | ok t =>
    obtain ⟨same, made', -, serves⟩ := exists_withKind_of_parse parsed kind allowed
    cases made.symm.trans made'
    exact ⟨t, rfl, serves⟩

end Strategy

/-- A search that is to be described has a tree to show. -/
theorem Command.Settings.exists_describeTree_eq {settings : Settings} {s : Strategy}
    (built : settings.strategy = .ok s) : ∃ t, Pattern.parse settings.pattern = .ok t ∧
      settings.describeTree = "Tree: ".toList ++ t.bracketed ++ ['\n'] := by
  unfold strategy at built
  split at built
  · next made =>
    obtain ⟨t, parsed, -⟩ := Strategy.exists_parse_of_withKind made
    exact ⟨t, parsed, by rw [describeTree, parsed]⟩
  · cases built

/-- A strategy cannot be built exactly when the pattern cannot be read, and for the same reason.
Left to itself, the choice is a literal if the pattern has no structure and an automaton if it has.
Only where a literal is asked for, structure is an error of its own, whether the pattern can be read
or not. A pattern without structure has no other fault than to be empty or to leave the alphabet. So
there is always a tree to be described where there is a strategy. -/
theorem Strategy.building_follows_parse (pattern : List Char) :
    let structured := ∃ c ∈ pattern, c = '*' ∨ c = '|' ∨ c = '(' ∨ c = ')'
    (structured → FollowsParse pattern .automaton (select pattern)) ∧
    (¬structured → FollowsParse pattern .kmp (select pattern)) ∧
    FollowsParse pattern .automaton (withKind pattern .automaton) ∧
    (withKind pattern .kmp = .error (.notLiteral pattern) ↔ structured) ∧
    (¬structured → FollowsParse pattern .kmp (withKind pattern .kmp) ∧
      ∀ e, Pattern.parse pattern = .error e ↔ pattern = [] ∧ e = .empty ∨
        ∃ c, (pattern.find? fun c => alphabetSize ≤ c.toNat) = some c ∧
          e = .unsupportedCharacter c) ∧
    (∀ kind built, withKind pattern kind = .ok built → ∃ t, Pattern.parse pattern = .ok t) ∧
    ∀ settings : Command.Settings, settings.pattern = pattern →
      ∀ s, settings.strategy = .ok s → ∃ t, Pattern.parse pattern = .ok t ∧
        settings.describeTree = "Tree: ".toList ++ t.bracketed ++ ['\n'] := by
  intro structured
  have literal : Factor.isLiteral pattern = true ↔ ¬structured := by
    rw [← Bool.not_eq_false, Factor.isLiteral_eq_false_iff]
  refine ⟨fun holds => ?_, fun plain => ?_, ?_, ⟨fun refused => ?_, fun holds => ?_⟩,
    fun plain => ⟨?_, fun e => ?_⟩, fun kind built made => ?_, fun settings same s built => ?_⟩
  · have chosen : kindFor pattern .auto = .automaton := by
      simp [kindFor, Factor.isLiteral_eq_false_iff.2 holds]
    exact chosen ▸ followsParse_withKind .auto (by simp [chosen])
  · have chosen : kindFor pattern .auto = .kmp := by simp [kindFor, literal.2 plain]
    exact chosen ▸ followsParse_withKind .auto fun _ => literal.2 plain
  · exact followsParse_withKind .automaton (by simp [kindFor])
  · by_contra plain
    have follows := followsParse_withKind .kmp fun _ => literal.2 plain
    obtain ⟨cause, other, -⟩ := (follows.error_iff _).1 refused
    cases other
  · exact withKind_kmp_of_structural (Factor.isLiteral_eq_false_iff.2 holds)
  · exact followsParse_withKind .kmp fun _ => literal.2 plain
  · exact Factor.parse_eq_error_iff_of_isLiteral (literal.2 plain)
  · obtain ⟨t, parsed, -⟩ := exists_parse_of_withKind made
    exact ⟨t, parsed⟩
  · exact same ▸ Command.Settings.exists_describeTree_eq built

end LineGrep
