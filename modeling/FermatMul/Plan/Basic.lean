import FermatMul.BinaryLength
import FermatMul.Refusal

/-!
The plan of one multiplication by transform: a product below `2 ^ m` is computed from blocks of
`2 ^ (n - 1)` bits, whose convolution is taken in the ring of integers modulo `2 ^ (2 ^ n) + 1`.
-/

namespace FermatMul

structure Plan where
  /-- The product is below `2 ^ m`. -/
  m : Nat
  /-- Coefficients are residues modulo `2 ^ (2 ^ n) + 1`. -/
  n : Nat
  deriving DecidableEq, Repr

namespace Plan

open scoped FermatMul.CorePower

/-- The plan for operands of at most `bits` bits: the least `m` with `2 * bits ≤ 2 ^ m`. -/
def ofSize (bits : Nat) : Plan :=
  let m := binaryLength (2 * max bits 1 - 1)
  { m, n := m / 2 + 1 }

/-- The plan of an explicit pair of exponents, where they are in range and belong together. -/
def ofExponents (m n : Nat) : Except Refusal Plan :=
  if ¬ (Limits.minExponent ≤ n ∧ n ≤ Limits.maxExponent) then .error (.exponentRange n)
  else if n ≠ m / 2 + 1 then .error (.exponentPairing m n)
  else .ok { m, n }

def ofSize? (bits : Nat) : Option Plan :=
  if 2 * max bits 1 < Limits.indexBound then some (ofSize bits) else none

/-- An unchecked pair of exponents, where both `2 ^ (n - 1)` and `2 ^ n` are machine words. -/
def ofPair? (m n : Nat) : Option Plan :=
  if 0 < n ∧ n < 64 then some { m, n } else none

def ringBits (p : Plan) : Nat := 2 ^ p.n

def ringWords (p : Plan) : Nat := p.ringBits / Limits.bitsPerWord

def residueWords (p : Plan) : Nat := 2 * p.ringWords

def logLength (p : Plan) : Nat :=
  if p.m % 2 = 0 then p.n - 1 else p.n

def length (p : Plan) : Nat := 2 ^ p.logLength

def blockBits (p : Plan) : Nat := 2 ^ (p.n - 1)

def blockWords (p : Plan) : Nat := p.blockBits / Limits.bitsPerWord

/-- The weight of the transform is `2 ^ weightExponent`; its power to the transform length is minus
one. -/
def weightExponent (p : Plan) : Nat := p.ringBits / p.length

/-- Bits of a product coefficient that are computed apart from the ring. -/
def dyadicBits (p : Plan) : Nat := p.n + 2

/-- Width of the fields in which the low bits are packed, so that their products do not meet. -/
def slotBits (p : Plan) : Nat := 3 * p.n + 5

def blockCount (p : Plan) (len : Nat) : Nat := (len + p.blockWords - 1) / p.blockWords

theorem dyadicBits_le_slotBits (p : Plan) : p.dyadicBits ≤ p.slotBits := by
  simp only [dyadicBits, slotBits]
  omega

end Plan

end FermatMul
