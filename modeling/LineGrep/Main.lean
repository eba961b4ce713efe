import LineGrep.Command.Report

/-!
The program: it reads the command line, opens and reads the text to be searched, and writes the
report. All that it writes is decided elsewhere.
-/

namespace LineGrep.Command

/-- What went wrong, in the words of the system. -/
def causeOf (e : IO.Error) : List Char :=
  match e with
  | .noFileOrDirectory _ code details => described code details
  | .inappropriateType _ code details => described code details
  | .permissionDenied _ code details => described code details
  | .resourceExhausted _ code details => described code details
  | .invalidArgument _ code details => described code details
  | .hardwareFault code details => described code details
  | .otherError code details => described code details
  | other => (toString other).toList
where
  described (code : UInt32) (details : String) : List Char :=
    details.toList ++ " (os error ".toList ++ Text.decimal code.toNat ++ [')']

/-- Reads to the end, or as far as it goes. -/
partial def readSource (stream : IO.FS.Stream) (sofar : ByteArray) : IO Source := do
  match ← (stream.read 65536).toBaseIO with
  | .error e => return ⟨sofar.toList, some (causeOf e)⟩
  | .ok chunk =>
    if chunk.isEmpty then return .ofBytes sofar.toList else readSource stream (sofar ++ chunk)

/-- Opens and reads a file or the standard input. -/
def openSource (file : Option (List Char)) : IO (Except (List Char) Source) := do
  match file with
  | none => return .ok (← readSource (← IO.getStdin) .empty)
  | some path =>
    match ← (IO.FS.Handle.mk (String.ofList path) .read).toBaseIO with
    | .error e => return .error (causeOf e)
    | .ok handle => return .ok (← readSource (.ofHandle handle) .empty)

/-- Writes a report and gives the exit code. -/
def Report.emit (r : Report) : IO UInt32 := do
  (← IO.getStderr).putStr (String.ofList r.errors)
  (← IO.getStdout).putStr (String.ofList r.output)
  return UInt32.ofNat r.code

def run (arguments : List String) : IO UInt32 := do
  (← respond readArguments openSource (arguments.map String.toList)).emit

end LineGrep.Command

def main (arguments : List String) : IO UInt32 :=
  LineGrep.Command.run arguments
