import FermatMul.Limits

namespace FermatMul

/-- What a caller may choose about a multiplication. No choice changes a product. -/
structure Tuning where
  /-- Operand bits from which a product goes through the transform. -/
  threshold : Nat := Limits.defaultThreshold
  /-- Transform length from which work is spread over several threads. -/
  parallel : Nat := Limits.defaultParallel
  deriving DecidableEq, Repr

namespace Tuning

/-- Zero stands for a default, and no threshold is below the lowest one. -/
def normalize (t : Tuning) : Tuning where
  threshold :=
    max (if t.threshold = 0 then Limits.defaultThreshold else t.threshold) Limits.minThreshold
  parallel := if t.parallel = 0 then Limits.defaultParallel else t.parallel

def ofThreshold (bits : Nat) : Tuning :=
  normalize { threshold := bits }

def spreads (t : Tuning) (len : Nat) : Bool :=
  decide (t.parallel ≤ len)

/-- The threshold in effect, also for settings that were never normalized. -/
def effectiveThreshold (t : Tuning) : Nat :=
  max t.threshold Limits.minThreshold

theorem minThreshold_le_effectiveThreshold (t : Tuning) :
    512 ≤ t.effectiveThreshold :=
  Nat.le_max_right ..

end Tuning

end FermatMul
