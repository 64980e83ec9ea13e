import FermatMul.Plan.Basic
import FermatMul.Tuning

namespace FermatMul

/-- The route by which a product was computed. A multiplication by transform holds the route of its
packed product and those of its pointwise products, in index order. -/
inductive Route where
  /-- Without a transform: a zero product or a long multiplication. -/
  | direct
  | transform (p : Plan) (outLen : Nat) (packed : Route) (pointwise : List Route)
  deriving Repr

inductive Event where
  | multiply (aBits bBits threshold : Nat)
  | square (bits threshold : Nat)
  | transform (m n len outLen : Nat)
  | pointwise (len : Nat) (parallel : Bool)
  deriving DecidableEq, Repr

namespace Event

inductive Level where
  | debug
  | trace
  deriving DecidableEq, Repr

def Level.label : Level → String
  | debug => "DEBUG"
  | trace => "TRACE"

def level : Event → Level
  | multiply .. | square .. => .debug
  | transform .. | pointwise .. => .trace

def message : Event → String
  | multiply .. => "mult"
  | square .. => "square"
  | transform .. => "schönhage-strassen multiply"
  | pointwise .. => "pointwise products"

end Event

namespace Route

mutual

/-- The events in index order, which is that of a run whose work stays on one thread. Threads that
share the pointwise products report the same events and mix those of different products. -/
def events (t : Tuning) : Route → List Event
  | direct => []
  | transform p outLen packed pointwise =>
      .transform p.m p.n p.length outLen :: events t packed ++
        .pointwise p.length (t.spreads p.length) :: eventsOfAll t pointwise

def eventsOfAll (t : Tuning) : List Route → List Event
  | [] => []
  | route :: routes => events t route ++ eventsOfAll t routes

end

end Route

end FermatMul
