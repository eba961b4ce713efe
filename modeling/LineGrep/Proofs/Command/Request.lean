import LineGrep.Command.Report

/-!
Command lines that put their options first. Main statement: the program reads flags, of which none is
given twice, a kind of search and a pattern with its file as the settings for which they stand.
-/

namespace LineGrep.Command

/-- A command line with flags and perhaps a kind of search. The two dashes before the pattern keep it
from being taken for an option, whatever it is. -/
def commandLine (flags : List Flag) (kind : Option SearchKind) (pattern : List Char)
    (file : Option (List Char)) : List (List Char) :=
  (flags.map fun flag => ['-', flag.letter]) ++
    (kind.toList.map fun kind => "--strategy=".toList ++ kindName kind) ++
    ['-', '-'] :: pattern :: file.toList

/-- A reader takes such command lines as they are meant. Flags may come in any order, but each of
them once, and if no kind of search is given it is left to the pattern. -/
def Reads (read : List (List Char) → Except Report Settings) : Prop :=
  ∀ (flags : List Flag) (kind : Option SearchKind) (pattern : List Char)
    (file : Option (List Char)), flags.Nodup → read (commandLine flags kind pattern file) =
      .ok ⟨pattern, file, kind.getD .auto, flags.contains .lineNumbers, flags.contains .count,
        flags.contains .verbose⟩

namespace Given

variable {g : Given} {flag : Flag} {rest : List (List Char)}

theorem kind?_kindName (kind : SearchKind) : kind? (kindName kind) = some kind := by
  cases kind <;> decide

theorem read_flag (ready : g.awaitsKind = false) (unused : flag ∉ g.flags) :
    g.read (['-', flag.letter] :: rest) = read { g with flags := flag :: g.flags } rest := by
  have taken : g.takeFlag flag = .ok { g with flags := flag :: g.flags } := by
    simp [takeFlag, unused]
  cases flag <;> simp [read, ready, Flag.letter, takeLetters, Flag.all, taken]

/-- Flags may be given in any order, each of them once. -/
theorem read_flags (ready : g.awaitsKind = false) (flags : List Flag) (distinct : flags.Nodup)
    (unused : ∀ flag ∈ flags, flag ∉ g.flags) :
    g.read ((flags.map fun flag => ['-', flag.letter]) ++ rest) =
      read { g with flags := flags.reverse ++ g.flags } rest := by
  induction flags generalizing g with
  | nil => rfl
  | cons flag flags ih =>
    obtain ⟨fresh, distinct⟩ := List.nodup_cons.1 distinct
    obtain ⟨first, others⟩ := List.forall_mem_cons.1 unused
    have later : ∀ other ∈ flags, other ∉ flag :: g.flags := by
      intro other mem
      rw [List.mem_cons, not_or]
      exact ⟨fun same => fresh (same ▸ mem), others other mem⟩
    rw [List.map_cons, List.cons_append, read_flag ready first,
      ih (g := { g with flags := flag :: g.flags }) ready distinct later]
    simp

/-- What follows the equals sign of the option is the name of the kind. -/
theorem read_strategy (ready : g.awaitsKind = false) (name : List Char) {next : Given}
    (taken : g.takeKind name = .ok next) :
    g.read (("--strategy=".toList ++ name) :: rest) = next.read rest := by
  have option : "--strategy=".toList ++ name = '-' :: '-' :: ("strategy=".toList ++ name) := rfl
  have before : ("strategy=".toList ++ name).takeWhile (· ≠ '=') = "strategy".toList := rfl
  have behind : (("strategy=".toList ++ name).dropWhile (· ≠ '=')).tail? = some name := rfl
  have long : g.takeLong "strategy".toList (some name) = .ok (.more next) := by
    rw [takeLong, if_pos rfl, taken]
    rfl
  rw [option, read]
  · simp only [ready, before, behind, long]
    rfl
  · simp

theorem read_kind (ready : g.awaitsKind = false) (unused : g.kind = none)
    (kind : Option SearchKind) :
    g.read ((kind.toList.map fun kind => "--strategy=".toList ++ kindName kind) ++ rest) =
      read { g with kind } rest := by
  cases kind with
  | none =>
    have same : { g with kind := none } = g := by rw [← unused]
    rw [same]
    rfl
  | some kind =>
    refine read_strategy ready (kindName kind) ?_
    rw [takeKind, unused, kind?_kindName, ← ready]
    rfl

theorem read_plain (ready : g.awaitsKind = false) (unused : g.pattern = none) (free : g.file = none)
    (pattern : List Char) (file : Option (List Char)) :
    g.read (['-', '-'] :: pattern :: file.toList) =
      finish { g with pattern := some pattern, file := file } := by
  cases file <;> simp [read, readPlain, takePlain, ready, unused, free]

end Given

/-- The reader of the program reads command lines as they are meant. -/
theorem reads_readArguments : Reads readArguments := by
  intro flags kind pattern file distinct
  have asked : Request.ofArguments (commandLine flags kind pattern file) =
      .ok (.search ⟨pattern, file, kind.getD .auto, flags.contains .lineNumbers,
        flags.contains .count, flags.contains .verbose⟩) := by
    rw [Request.ofArguments, commandLine, List.append_assoc,
      Given.read_flags rfl flags distinct fun _ _ => List.not_mem_nil, Given.read_kind rfl rfl,
      Given.read_plain rfl rfl rfl]
    simp [Given.finish, Given.nothing]
  rw [readArguments, asked]

end LineGrep.Command
