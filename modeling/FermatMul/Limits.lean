namespace FermatMul

namespace CorePower

-- Powers of numbers stay the core library's where a larger library adds its own. A numeral as the
-- exponent has to be given its type for this.
scoped instance (priority := 2000) natPower {α : Type} [NatPow α] : Pow α Nat := instPowNat

end CorePower

namespace Limits

open scoped FermatMul.CorePower

def bitsPerWord : Nat := 32

/-- Operand bits from which products go through the transform, unless configured otherwise. -/
def defaultThreshold : Nat := 32768

/-- The lowest threshold in effect: at 257 bits and more every block is a whole number of words. -/
def minThreshold : Nat := 512

/-- Transform length from which work is spread over several threads, unless configured otherwise. -/
def defaultParallel : Nat := 256

/-- The least ring exponent `n` for which `2 ^ n` bits are whole words. -/
def minExponent : Nat := 5

def maxExponent : Nat := 40

/-- Sizes and bit positions are machine words: they stay below this bound. -/
def indexBound : Nat := 2 ^ (64 : Nat)

end Limits

end FermatMul
