import LineGrep.Search.Strategy
import LineGrep.Text.Line
import LineGrep.Text.Utf8

/-!
Searching a text line by line. Lines are decoded without fail, each on its own and without its
ending. A line with a character that cannot be searched is reported and skipped. If the text cannot
be read to its end, no line counts.
-/

namespace LineGrep

/-- What a reader delivers: some bytes, and then the end of the text or the reason why the rest
cannot be read. -/
structure Source where
  bytes : List UInt8
  failure : Option (List Char)

/-- A line with a match. Lines are numbered from one. -/
structure LineMatch where
  number : Nat
  line : List Char
  deriving DecidableEq, Repr

inductive ReadError where
  | reading (number : Nat) (cause : List Char)
  | searching (number : Nat) (cause : AutomatonError)
  deriving DecidableEq, Repr

def ReadError.message : ReadError → List Char
  | reading n cause =>
    "Failed to read line ".toList ++ Text.decimal n ++ ": ".toList ++ cause
  | searching n cause =>
    "Failed to search line ".toList ++ Text.decimal n ++ ": ".toList ++ cause.message

namespace Source

def lineFeed : UInt8 := 0x0a

def carriageReturn : UInt8 := 0x0d

def ofBytes (bytes : List UInt8) : Source :=
  ⟨bytes, none⟩

def lines (source : Source) : List (List UInt8) :=
  Text.lines lineFeed source.bytes

/-- The lines that are read as a whole: all of them if the end of the text is reached, and those
that end with a line feed if not. -/
def readable (source : Source) : List (List UInt8) :=
  match source.failure with
  | none => source.lines
  | some _ => source.lines.filter (Text.isTerminated lineFeed)

def decodeLine (line : List UInt8) : List Char :=
  Text.decodeLossy (Text.stripEnding lineFeed carriageReturn line)

end Source

structure Findings where
  result : Except ReadError (List LineMatch)
  events : List Event
  strategy : Strategy

namespace Findings

def withMatch (found : LineMatch) (rest : Findings) : Findings :=
  { rest with result := rest.result.map (found :: ·) }

def withEvent (event : Event) (rest : Findings) : Findings :=
  { rest with events := event :: rest.events }

end Findings

namespace Strategy

/-- Searches lines that are numbered from the given number on. After the last one, the text ends or
cannot be read on. -/
def searchLines (s : Strategy) (failure : Option (List Char)) (number : Nat) :
    List (List Char) → Findings
  | [] =>
    match failure with
    | none => ⟨.ok [], [], s⟩
    | some cause => ⟨.error (.reading number cause), [], s⟩
  | line :: rest =>
    let outcome := s.search line
    match outcome.1 with
    | .ok true => (searchLines outcome.2 failure (number + 1) rest).withMatch ⟨number, line⟩
    | .ok false => searchLines outcome.2 failure (number + 1) rest
    | .error (.characterOutOfRange c) =>
      (searchLines outcome.2 failure (number + 1) rest).withEvent
        (.lineSkipped number (.characterOutOfRange c))
    | .error e => ⟨.error (.searching number e), [], outcome.2⟩

def searchText (s : Strategy) (source : Source) : Findings :=
  s.searchLines source.failure 1 (source.readable.map Source.decodeLine)

end Strategy

end LineGrep
