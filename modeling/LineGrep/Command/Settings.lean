import LineGrep.Regex.Brackets
import LineGrep.Search.Lines

/-!
Searches that a command line asks for, and what the program writes about them. The exit code is 0 if
a line matches, 1 if none does and 2 if the search cannot be done; then nothing is written to the
standard output. How a command line is read is left open here: a reader gives the settings of a
search, or a report of its own in its place.
-/

namespace LineGrep.Command

/-- What is to be searched for, where and how. -/
structure Settings where
  pattern : List Char
  /-- The file to be searched, or the standard input. -/
  file : Option (List Char)
  kind : SearchKind
  lineNumbers : Bool
  count : Bool
  verbose : Bool
  deriving DecidableEq, Repr

inductive Flag where
  | lineNumbers
  | count
  | verbose
  deriving DecidableEq, Repr

namespace Flag

def all : List Flag :=
  [lineNumbers, count, verbose]

def letter : Flag → Char
  | lineNumbers => 'n'
  | count => 'c'
  | verbose => 'v'

def name : Flag → List Char
  | lineNumbers => "line-number".toList
  | count => "count".toList
  | verbose => "verbose".toList

end Flag

/-- The name of a kind of search on the command line. -/
def kindName : SearchKind → List Char
  | .auto => "auto".toList
  | .automaton => "automaton".toList
  | .kmp => "kmp".toList

/-- What a run writes, and the code that it ends with. -/
structure Report where
  code : Nat
  output : List Char
  errors : List Char
  deriving DecidableEq, Repr

def Report.failure (notes message : List Char) : Report :=
  ⟨2, [], notes ++ message ++ ['\n']⟩

namespace Settings

/-- The strategy for the pattern, or the report that there is none. -/
def strategy (s : Settings) : Except Report Strategy :=
  match Strategy.withKind s.pattern s.kind with
  | .ok built => .ok built.value
  | .error e => .error (.failure [] e.message)

def describeTree (s : Settings) : List Char :=
  match Pattern.parse s.pattern with
  | .ok tree => "Tree: ".toList ++ tree.bracketed ++ ['\n']
  | .error _ => []

def describeStrategy : Strategy → List Char
  | .automaton cursor =>
    "DFA (".toList ++ Text.decimal cursor.dfa.size ++ " states):\n".toList ++
      cursor.dfa.table.text ++ ['\n']
  | .kmp factor =>
    "KMP factor ".toList ++ Text.quoteText factor.pattern ++ ", carry-over [".toList ++
      Text.commaSeparated (factor.carryOver.toList.map Text.signedDecimal) ++ [']', '\n']

def notes (s : Settings) (strategy : Strategy) : List Char :=
  if s.verbose then s.describeTree ++ describeStrategy strategy else []

def showMatch (s : Settings) (m : LineMatch) : List Char :=
  (if s.lineNumbers then Text.decimal m.number ++ [':'] else []) ++ m.line ++ ['\n']

def showMatches (s : Settings) (found : List LineMatch) : List Char :=
  if s.count then Text.decimal found.length ++ ['\n'] else found.flatMap s.showMatch

def readMessage (s : Settings) (e : ReadError) : List Char :=
  match s.file with
  | none => e.message
  | some path => "Failed to search ".toList ++ path ++ ": ".toList ++ e.message

def openMessage (s : Settings) (cause : List Char) : List Char :=
  "Failed to open ".toList ++ s.file.getD [] ++ ": ".toList ++ cause

/-- The report on a search, for what is read or the reason why the file cannot be opened. -/
def report (s : Settings) (strategy : Strategy) (opened : Except (List Char) Source) : Report :=
  match opened with
  | .error cause => .failure (s.notes strategy) (s.openMessage cause)
  | .ok source =>
    match (strategy.searchText source).result with
    | .error e => .failure (s.notes strategy) (s.readMessage e)
    | .ok found =>
      ⟨if found.isEmpty then 1 else 0, s.showMatches found, s.notes strategy⟩

/-- The report of a search, for a way to open and read what is to be searched. Nothing is opened if
there is no strategy. -/
def perform {m : Type → Type} [Monad m] (s : Settings)
    (openSource : Option (List Char) → m (Except (List Char) Source)) : m Report :=
  match s.strategy with
  | .error report => return report
  | .ok strategy => return s.report strategy (← openSource s.file)

end Settings

/-- The report that a command line leads to, for a reader of command lines. -/
def respond {m : Type → Type} [Monad m] (read : List (List Char) → Except Report Settings)
    (openSource : Option (List Char) → m (Except (List Char) Source))
    (arguments : List (List Char)) : m Report :=
  match read arguments with
  | .error report => return report
  | .ok settings => settings.perform openSource

end LineGrep.Command
