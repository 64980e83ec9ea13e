import FermatMul.Text.Fixed

namespace FermatMul.Text

/-- An elapsed time. -/
structure Duration where
  secs : Nat
  nanos : Nat
  deriving DecidableEq, Repr

namespace Duration

def nanosPerSecond : Nat := 1000000000

/-- The span of a number of seconds and nanoseconds; whole seconds among the latter are carried. -/
def ofParts (secs nanos : Nat) : Duration where
  secs := secs + nanos / nanosPerSecond
  nanos := nanos % nanosPerSecond

def seconds (d : Duration) : Float :=
  d.secs.toUInt64.toFloat + d.nanos.toUInt64.toFloat / nanosPerSecond.toUInt64.toFloat

/-- The text of a span: microseconds and milliseconds have two decimals, seconds three. -/
def text (d : Duration) : String :=
  let s := d.seconds
  if s < 0.001 then Fixed.renderFloat 2 (s * 1000000.0) ++ "µs"
  else if s < 1.0 then Fixed.renderFloat 2 (s * 1000.0) ++ "ms"
  else Fixed.renderFloat 3 s ++ "s"

end Duration

end FermatMul.Text
