import LineGrep.Pattern.Cached
import Mathlib.Data.List.Basic
import Mathlib.Data.List.Induction

/-!
A pattern that keeps its tree, over any sequence of calls. Each call leaves nothing kept or the tree
of the current pattern, so a call to parse answers as reading the pattern anew would. Main
statement: this holds after every sequence of calls, a tree is kept exactly if some call to parse
has succeeded since the pattern was set, and a pattern that cannot be read gives the same error each
time and keeps nothing.
-/

namespace LineGrep.Pattern.Cached

inductive Call where
  | new (pattern : List Char)
  | setPattern (pattern : List Char)
  | parse
  | isParsed

/-- The pattern that a call sets, if it sets one. -/
def Call.pattern? : Call → Option (List Char)
  | new pattern | setPattern pattern => some pattern
  | parse | isParsed => none

/-- What a call leaves behind. A new pattern takes the place of the old one with its tree. -/
def run (c : Cached) : Call → Cached
  | .new pattern => ofPattern pattern
  | .setPattern pattern => c.setPattern pattern
  | .parse => c.parse.2
  | .isParsed => c

/-- What is left after calls in their order. -/
def after (c : Cached) (calls : List Call) : Cached :=
  calls.foldl run c

/-- Some call to parse has succeeded, and no later one has set the pattern. -/
def ParsedSince (c : Cached) (calls : List Call) : Prop :=
  ∃ before later t, calls = before ++ .parse :: later ∧ (∀ call ∈ later, call.pattern? = none) ∧
    (c.after before).parse.1 = .ok t

variable {c : Cached} {call : Call} {calls later : List Call}

theorem after_append (c : Cached) (calls later : List Call) :
    c.after (calls ++ later) = (c.after calls).after later :=
  List.foldl_append

theorem after_concat (c : Cached) (calls : List Call) (call : Call) :
    c.after (calls ++ [call]) = (c.after calls).run call :=
  c.after_append calls [call]

theorem pattern_run (c : Cached) (call : Call) :
    (c.run call).pattern = call.pattern?.getD c.pattern := by
  cases call with
  | new | setPattern | isParsed => rfl
  | parse => exact c.pattern_parse

/-- The pattern is the one that was set last. -/
theorem pattern_after (c : Cached) (calls : List Call) :
    (c.after calls).pattern = (calls.filterMap Call.pattern?).getLast?.getD c.pattern := by
  induction calls using List.reverseRecOn with
  | nil => rfl
  | append_singleton calls call ih =>
    rw [after_concat, pattern_run, ih, List.filterMap_append]
    cases set : call.pattern? with
    | none => simp [set]
    | some pattern => simp [set]

theorem Valid.run (h : c.Valid) (call : Call) : (c.run call).Valid := by
  cases call with
  | new pattern | setPattern pattern => exact valid_ofPattern pattern
  | parse => exact h.parse
  | isParsed => exact h

theorem Valid.after (h : c.Valid) (calls : List Call) : (c.after calls).Valid := by
  induction calls generalizing c with
  | nil => exact h
  | cons call calls ih => exact ih (h.run call)

theorem Valid.isParsed_parse (h : c.Valid) :
    c.parse.2.isParsed = true ↔ ∃ t, c.parse.1 = .ok t := by
  rw [h.parse_eq, isParsed]
  cases Pattern.parse c.pattern <;> simp [Except.toOption]

theorem exists_parse_of_isParsed (h : c.Valid) (kept : c.isParsed = true) :
    ∃ t, c.parse.1 = .ok t := by
  obtain ⟨t, same⟩ := Option.isSome_iff_exists.1 kept
  rw [h.parse_eq, h t same]
  exact ⟨t, rfl⟩

theorem parsedSince_concat_iff : c.ParsedSince (calls ++ [call]) ↔
    call.pattern? = none ∧
      (c.ParsedSince calls ∨ call = .parse ∧ ∃ t, (c.after calls).parse.1 = .ok t) := by
  constructor
  · rintro ⟨before, later, t, same, quiet, parsed⟩
    rcases later.eq_nil_or_concat' with rfl | ⟨later, final, rfl⟩
    · obtain ⟨rfl, last⟩ := List.append_inj' same rfl
      obtain rfl := List.singleton_inj.1 last
      exact ⟨rfl, Or.inr ⟨rfl, t, parsed⟩⟩
    · rw [← List.cons_append, ← List.append_assoc] at same
      obtain ⟨rfl, last⟩ := List.append_inj' same rfl
      obtain rfl := List.singleton_inj.1 last
      refine ⟨quiet call (by simp), Or.inl ⟨before, later, t, rfl, fun d mem => ?_, parsed⟩⟩
      exact quiet d (List.mem_append_left _ mem)
  · rintro ⟨none, ⟨before, later, t, rfl, quiet, parsed⟩ | ⟨rfl, t, parsed⟩⟩
    · refine ⟨before, later ++ [call], t, by simp, fun d mem => ?_, parsed⟩
      rcases List.mem_append.1 mem with old | last
      · exact quiet d old
      · rw [List.mem_singleton.1 last, none]
    · exact ⟨calls, [], t, rfl, by simp, parsed⟩

theorem isParsed_after_iff (pattern : List Char) (calls : List Call) :
    ((ofPattern pattern).after calls).isParsed = true ↔ (ofPattern pattern).ParsedSince calls := by
  induction calls using List.reverseRecOn with
  | nil =>
    refine iff_of_false Bool.false_ne_true ?_
    rintro ⟨before, later, t, same, -⟩
    exact List.append_ne_nil_of_right_ne_nil before (List.cons_ne_nil _ later) same.symm
  | append_singleton calls call ih =>
    have valid := (valid_ofPattern pattern).after calls
    rw [after_concat, parsedSince_concat_iff, ← ih]
    cases call with
    | new | setPattern => exact iff_of_false Bool.false_ne_true (by simp [Call.pattern?])
    | isParsed => simp [run, Call.pattern?]
    | parse =>
      -- A tree that was kept before is what the call answers.
      rw [run, valid.isParsed_parse]
      exact ⟨fun parsed => ⟨rfl, Or.inr ⟨rfl, parsed⟩⟩, fun h =>
        h.2.elim (exists_parse_of_isParsed valid) And.right⟩

theorem pattern_after_of_quiet (quiet : ∀ call ∈ later, call.pattern? = none) :
    (c.after later).pattern = c.pattern := by
  rw [pattern_after, List.filterMap_eq_nil_iff.2 quiet]
  rfl

/-- After any sequence of calls, a call to parse answers as reading the pattern that was set last
does, and a tree is kept exactly if such a call has succeeded since. If the pattern cannot be read,
the call leaves the pattern with nothing kept, and gives the same error until a pattern is set. -/
theorem parse_after_eq (pattern : List Char) (calls : List Call) :
    let c := (ofPattern pattern).after calls
    c.pattern = (calls.filterMap Call.pattern?).getLast?.getD pattern ∧
      c.parse.1 = Pattern.parse c.pattern ∧
      (c.isParsed = true ↔ (ofPattern pattern).ParsedSince calls) ∧
      ∀ e, c.parse.1 = .error e → c.parse.2 = ⟨c.pattern, none⟩ ∧
        ∀ later : List Call, (∀ call ∈ later, call.pattern? = none) →
          (c.parse.2.after later).parse.1 = .error e := by
  intro c
  have valid : c.Valid := (valid_ofPattern pattern).after calls
  refine ⟨pattern_after _ calls, by rw [valid.parse_eq], isParsed_after_iff pattern calls, ?_⟩
  intro e failed
  have read : Pattern.parse c.pattern = .error e := by
    rwa [valid.parse_eq] at failed
  refine ⟨by rw [valid.parse_eq, read]; rfl, fun later quiet => ?_⟩
  rw [(valid.parse.after later).parse_eq, pattern_after_of_quiet quiet, pattern_parse]
  exact read

end LineGrep.Pattern.Cached
