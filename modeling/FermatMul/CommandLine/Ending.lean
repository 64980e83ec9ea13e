import FermatMul.CommandLine.Log
import FermatMul.CommandLine.Report

namespace FermatMul.CommandLine

/-- How a run of the program ends. -/
inductive Ending where
  | misused (e : UsageError)
  | failed (e : Failure) (log : List LogEvent := [])
  | answered (s : Settings) (a : Answer) (log : List LogEvent := [])
  deriving DecidableEq, Repr

/-- A reader of command lines. -/
abbrev Reader := Environment → List String → Except UsageError Invocation

/-- The texts of the libraries that read command lines and write the log. -/
structure LibraryTexts where
  help : String
  completion : Shell → String
  misuse : UsageError → String
  /-- The line of an event, with its place in the log: equal events may show different times. -/
  line : Nat → LogEvent → String

namespace Ending

def ofInvocation (i : Invocation) : Ending :=
  match Answer.ofInvocation i with
  | .error e => failed e i.log
  | .ok a => answered i.settings a i.log

def ofWords (read : Reader) (env : Environment) (words : List String) : Ending :=
  match read env words with
  | .error e => misused e
  | .ok i => ofInvocation i

def exitStatus : Ending → Nat
  | misused _ => 2
  | failed e _ => e.exitStatus
  | answered .. => 0

/-- What goes to the output, with the text of the time that the answer took. -/
def output (texts : LibraryTexts) (elapsed : String) : Ending → String
  | answered _ .help _ => texts.help
  | answered _ (.completion shell) _ => texts.completion shell
  | answered s a _ => a.render s elapsed
  | _ => ""

def log : Ending → List LogEvent
  | misused _ => []
  | failed _ log => log
  | answered _ _ log => log

/-- What goes to the diagnostics: the log, and behind it what went wrong. -/
def diagnostics (texts : LibraryTexts) (e : Ending) : String :=
  String.join (e.log.mapIdx texts.line) ++
    match e with
    | misused e => texts.misuse e
    | failed e _ => s!"Error: {e.message}\n"
    | answered .. => ""

end Ending

end FermatMul.CommandLine
