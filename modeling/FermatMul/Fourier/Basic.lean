import FermatMul.Fourier.BitReversal
import FermatMul.Plan.Basic
import FermatMul.Residue.Basic

/-!
The weighted number-theoretic transform over residues modulo `2 ^ (2 ^ n) + 1`. Two is a root of
unity there, so every factor is a rotation. Weighting the coefficients by powers of `θ`, where
`θ ^ len = -1`, turns products of transforms into negacyclic convolutions.
-/

namespace FermatMul.Fourier

open FermatMul.Words FermatMul.Residue
open scoped FermatMul.CorePower

/-- Joins the transforms of the even and the odd coefficients: the `j`-th odd one is turned by
`j` steps, then added to and taken from the even one. -/
def joinHalves (step : Nat) (upper lower : List Words) : List Words :=
  let turned := lower.mapIdx fun j a => rotateLeft a (step * j)
  upper.zipWith addWrap turned ++ upper.zipWith subWrap turned

/-- The transform of `2 ^ k` coefficients in bit-reversed order, in a ring where a rotation by
`period` bits is the identity. -/
def cascade (period : Nat) : Nat → List Words → List Words
  | 0, xs => xs
  | k + 1, xs =>
      joinHalves (period / 2 ^ (k + 1)) (cascade period k (xs.take (2 ^ k)))
        (cascade period k (xs.drop (2 ^ k)))

def cyclic (p : Plan) (xs : List Words) : List Words :=
  cascade (Limits.bitsPerWord * p.residueWords) p.logLength (BitReversal.permute xs.toArray).toList

/-- The transform of the coefficients weighted by powers of `θ`: output `k` is the value at
`θ ^ (2 * k + 1)` of the polynomial that the coefficients form. -/
def evaluate (p : Plan) (xs : List Words) : List Words :=
  cyclic p (xs.mapIdx fun j a => rotateLeft a (j * p.weightExponent))

/-- Keeps the first element and reverses the others. -/
def reflect {α : Type} : List α → List α
  | [] => []
  | x :: xs => x :: xs.reverse

/-- The coefficients whose weighted transform is given, in canonical form: the transform of the
reflected array, divided by its length and by the weights. -/
def interpolate (p : Plan) (xs : List Words) : List Words :=
  (cyclic p (reflect xs)).mapIdx fun j a =>
    fold (rotateRight a (p.logLength + j * p.weightExponent))

def requireShape (p : Plan) (xs : List Words) : Except Refusal Unit :=
  if xs.length ≠ p.length then
    .error (.coefficientCount p.m p.n p.length xs.length)
  else if xs.all (·.length == p.residueWords) then .ok ()
  else .error (.coefficientWidth p.n p.residueWords)

def evaluateAt (m n : Nat) (xs : List Words) : Except Refusal (List Words) := do
  let p ← Plan.ofExponents m n
  requireShape p xs
  return evaluate p xs

def interpolateAt (m n : Nat) (xs : List Words) : Except Refusal (List Words) := do
  let p ← Plan.ofExponents m n
  requireShape p xs
  return interpolate p xs

end FermatMul.Fourier
