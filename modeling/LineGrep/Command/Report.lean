import LineGrep.Command.Request

/-!
What the program makes of its command line: the settings of a search, or what it writes instead, be
it the version, how it is used or what is wrong.
-/

namespace LineGrep.Command

def Report.version : Report :=
  ⟨0, "egrep 0.1.0\n".toList, []⟩

def UsageError.report : UsageError → Report
  | .helpWanted => ⟨0, UsageError.helpWanted.message ++ ['\n'], []⟩
  | e => .failure [] e.message

/-- The settings that the program takes from its command line. -/
def readArguments (arguments : List (List Char)) : Except Report Settings :=
  match Request.ofArguments arguments with
  | .error e => .error e.report
  | .ok .version => .error .version
  | .ok (.search settings) => .ok settings

end LineGrep.Command
