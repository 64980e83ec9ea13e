import FermatMul.Product.Basic

namespace FermatMul

namespace Residue

/-- The product of two canonical residues, not canonical itself. -/
def mulCanonical (t : Tuning) (a b : Words) : Words :=
  let half := a.length / 2
  foldSigns a b (Product.multiply t (a.take half) (b.take half)).words

def mul (a b : Words) : Except Refusal Words := do
  requirePair .mul a b
  return mulCanonical {} (fold a) (fold b)

end Residue

namespace Fourier

def reduceAll (xs : List Words) : Except Refusal (List Words) :=
  xs.mapM Residue.reduce

def mulAll (xs ys : List Words) : Except Refusal (List Words) :=
  (xs.zip ys).mapM fun xy => Residue.mul xy.1 xy.2

/-- The negacyclic convolution of two arrays, in canonical form. -/
def negacyclicProduct (m n : Nat) (xs ys : List Words) : Except Refusal (List Words) := do
  let fx ← evaluateAt m n xs
  let fy ← evaluateAt m n ys
  let products ← mulAll fx fy
  interpolateAt m n products

end Fourier

end FermatMul
