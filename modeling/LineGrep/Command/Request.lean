import LineGrep.Command.Settings

/-!
Command lines. Options may stand before, between and after the pattern and the file; single letters
may share a dash, and two dashes alone end the options. The first thing that is wrong decides, and a
question for the version or for help counts if nothing before it was wrong.
-/

namespace LineGrep.Command

/-- What a command line asks for. -/
inductive Request where
  | version
  | search (settings : Settings)
  deriving DecidableEq, Repr

/-- Why nothing can be done about a command line. -/
inductive UsageError where
  /-- The user asks how to use the program. -/
  | helpWanted
  | unknownOption (name : List Char)
  | unexpectedValue (name : List Char)
  | repeated (name : List Char)
  | missingValue
  | invalidValue (value : List Char)
  | extraArgument (argument : List Char)
  | missingPattern
  deriving DecidableEq, Repr

def UsageError.message : UsageError → List Char
  | helpWanted => "Usage: egrep [OPTIONS] <REGEX> [FILE]".toList
  | unknownOption name => "unknown option ".toList ++ name
  | unexpectedValue name => "no value is allowed for ".toList ++ name
  | repeated name => "given more than once: ".toList ++ name
  | missingValue => "a value is needed for --strategy".toList
  | invalidValue value => "not a strategy: ".toList ++ value
  | extraArgument argument => "unexpected argument ".toList ++ argument
  | missingPattern => "a pattern is needed".toList

structure Given where
  pattern : Option (List Char)
  file : Option (List Char)
  kind : Option SearchKind
  flags : List Flag
  /-- Whether the next argument has to be the name of a strategy. -/
  awaitsKind : Bool

/-- What comes of reading a part of a command line: the version is asked for, or reading goes on. -/
inductive Step where
  | version
  | more (given : Given)

namespace Given

def nothing : Given :=
  ⟨none, none, none, [], false⟩

/-- The kind of search that a strategy's name stands for. -/
def kind? (name : List Char) : Option SearchKind :=
  [.auto, .automaton, .kmp].find? fun kind => kindName kind = name

def takeKind (g : Given) (name : List Char) : Except UsageError Given :=
  if g.kind.isSome then .error (.repeated "--strategy".toList)
  else
    match kind? name with
    | some kind => .ok { g with kind := some kind, awaitsKind := false }
    | none => .error (.invalidValue name)

def takeFlag (g : Given) (flag : Flag) : Except UsageError Given :=
  if g.flags.contains flag then .error (.repeated flag.name)
  else .ok { g with flags := flag :: g.flags }

/-- Takes the pattern, or else the file. -/
def takePlain (g : Given) (argument : List Char) : Except UsageError Given :=
  if g.awaitsKind then g.takeKind argument
  else if g.pattern.isNone then .ok { g with pattern := some argument }
  else if g.file.isNone then .ok { g with file := some argument }
  else .error (.extraArgument argument)

/-- Takes the letters after a dash. What follows the letter of the strategy is its name, after an
equals sign or not; if nothing follows, the name is the next argument. -/
def takeLetters (g : Given) : List Char → Except UsageError Step
  | [] => .ok (.more g)
  | 'V' :: _ => .ok .version
  | 'h' :: _ => .error .helpWanted
  | 's' :: [] => .ok (.more { g with awaitsKind := true })
  | 's' :: '=' :: name => (g.takeKind name).map .more
  | 's' :: name => (g.takeKind name).map .more
  | letter :: rest =>
    match Flag.all.find? fun flag => flag.letter = letter with
    | none => .error (.unknownOption ['-', letter])
    | some flag =>
      match g.takeFlag flag with
      | .ok next => takeLetters next rest
      | .error e => .error e

/-- Takes what follows two dashes: the name of an option, and after an equals sign a value. -/
def takeLong (g : Given) (name : List Char) (value : Option (List Char)) :
    Except UsageError Step :=
  if name = "strategy".toList then
    match value with
    | some kind => (g.takeKind kind).map .more
    | none => .ok (.more { g with awaitsKind := true })
  else if name = "version".toList then
    if value.isSome then .error (.unexpectedValue name) else .ok .version
  else if name = "help".toList then
    .error (if value.isSome then .unexpectedValue name else .helpWanted)
  else
    match Flag.all.find? fun flag => flag.name = name with
    | none => .error (.unknownOption name)
    | some flag =>
      if value.isSome then .error (.unexpectedValue name) else (g.takeFlag flag).map .more

def finish (g : Given) : Except UsageError Request :=
  if g.awaitsKind then .error .missingValue
  else
    match g.pattern with
    | none => .error .missingPattern
    | some pattern =>
      .ok (.search ⟨pattern, g.file, g.kind.getD .auto, g.flags.contains .lineNumbers,
        g.flags.contains .count, g.flags.contains .verbose⟩)

/-- Reads arguments of which none is an option. -/
def readPlain (g : Given) : List (List Char) → Except UsageError Request
  | [] => g.finish
  | argument :: rest =>
    match g.takePlain argument with
    | .ok next => readPlain next rest
    | .error e => .error e

/-- Reads arguments. An option cannot stand where the name of a strategy has to be. -/
def read (g : Given) : List (List Char) → Except UsageError Request
  | [] => g.finish
  | ['-', '-'] :: rest => if g.awaitsKind then .error .missingValue else g.readPlain rest
  | ('-' :: c :: body) :: rest =>
    if g.awaitsKind then .error .missingValue
    else
      let step :=
        if c = '-' then
          g.takeLong (body.takeWhile (· ≠ '=')) (body.dropWhile (· ≠ '=')).tail?
        else g.takeLetters (c :: body)
      match step with
      | .ok .version => .ok .version
      | .ok (.more next) => read next rest
      | .error e => .error e
  | argument :: rest =>
    match g.takePlain argument with
    | .ok next => read next rest
    | .error e => .error e

end Given

/-- What a command line asks for. -/
def Request.ofArguments (arguments : List (List Char)) : Except UsageError Request :=
  Given.nothing.read arguments

end LineGrep.Command
