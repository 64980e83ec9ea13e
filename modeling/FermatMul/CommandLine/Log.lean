import FermatMul.BinaryLength
import FermatMul.CommandLine.Answer

namespace FermatMul.CommandLine

/-- What a run reports while it works. -/
inductive LogEvent where
  | step (e : Event)
  /-- A product of so many bits is done. -/
  | computed (bits : Nat)
  deriving DecidableEq, Repr

namespace LogEvent

def level : LogEvent → Event.Level
  | step e => e.level
  | computed _ => .debug

def ofProduct (computed : Integer.Traced) : List LogEvent :=
  computed.events.map step ++ [.computed (binaryLength computed.value.natAbs)]

end LogEvent

namespace Invocation

/-- The events of a run. Only products report any, and they start once all operands are read. -/
def events (i : Invocation) : List LogEvent :=
  let t := i.settings.tuning
  match i.request with
  | .mul a b _ =>
      match readOperand a, readOperand b with
      | .ok a, .ok b => LogEvent.ofProduct (Integer.multiply t a b)
      | _, _ => []
  | .square a _ =>
      match readOperand a with
      | .ok a => LogEvent.ofProduct (Integer.square t a)
      | .error _ => []
  | _ => []

/-- The events that are written out: those down to the debug level in a verbose run, and otherwise
none, as there are no warnings. An environment that sets levels of its own is not considered. -/
def log (i : Invocation) : List LogEvent :=
  if i.settings.verbose then i.events.filter (·.level = .debug) else []

end Invocation

end FermatMul.CommandLine
