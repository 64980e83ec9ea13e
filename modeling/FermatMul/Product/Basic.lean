import FermatMul.Fourier.Basic
import FermatMul.Plan.Bounds
import FermatMul.Product.Route
import FermatMul.Words.LongProduct

/-!
Products of word vectors. Short operands are multiplied by rows. Long ones are cut into blocks:
every coefficient of the product is computed modulo `2 ^ (2 ^ n) + 1`, through the transform, and
modulo `2 ^ (n + 2)`, through one product of packed low bits; the two residues determine it.
-/

namespace FermatMul

open FermatMul.Words

structure Product where
  words : Words
  route : Route
  deriving Repr

namespace Product

def plan (a b : Words) : Plan :=
  Plan.ofSize (Limits.bitsPerWord * max (trim a).length (trim b).length)

/-- The transform of an operand's blocks, in canonical form. -/
def spectrum (p : Plan) (x : Words) : List Words :=
  (Fourier.evaluate p (p.blocks x)).map Residue.fold

/-- The number that brings a coefficient, known modulo `2 ^ (2 ^ n) + 1`, to its residue modulo
`2 ^ (n + 2)`, which is the `i`-th field of the packed product. -/
def correction (p : Plan) (packed : Words) (i : Nat) (c : Words) : Words :=
  Residue.subLow (extract packed (i * p.slotBits) p.dyadicBits) c p.dyadicBits

/-- Adds the `i`-th coefficient to the product: its residue, and the correction times the
modulus. -/
def addCoefficient (p : Plan) (packed : Words) (z : Words) (i : Nat) (c : Words) : Words :=
  let offset := i * p.blockWords
  let eta := correction p packed i c
  addAt (addAt (addAt z c offset) eta offset) eta (offset + p.ringWords)

/-- The sum of the coefficients that start within `outLen` words, each one at its block. -/
def recombine (p : Plan) (outLen : Nat) (packed : Words) (coefficients : List Words) : Words :=
  (coefficients.take (p.blockCount outLen)).zipIdx.foldl
    (fun z ci => addCoefficient p packed z ci.2 ci.1) (zeros outLen)

/-- The coefficients of the product modulo `2 ^ (2 ^ n) + 1`, in canonical form, from the products
of the low halves of the operands' spectra. -/
def coefficients (p : Plan) (spectra : List (Words × Words)) (pointwise : List Product) :
    List Words :=
  Fourier.interpolate p <|
    spectra.zipWith (fun xy c => Residue.foldSigns xy.1 xy.2 c.words) pointwise

/-- The product of two operands from the product of their packed low bits and from the products
of the low halves of their spectra. -/
def assemble (p : Plan) (outLen : Nat) (spectra : List (Words × Words)) (packed : Product)
    (pointwise : List Product) : Product where
  words := recombine p outLen packed.words (coefficients p spectra pointwise)
  route := .transform p outLen packed.route (pointwise.map (·.route))

theorem sixteen_le_length_trim {a : Words} (h : 512 ≤ significantBits a) :
    16 ≤ (trim a).length := by
  rw [length_trim]
  simp only [wordsFor, Limits.bitsPerWord]
  omega

theorem sixteen_le_max_length_trim {t : Tuning} {a b : Words}
    (h : ¬ max (significantBits a) (significantBits b) < t.effectiveThreshold) :
    16 ≤ max (trim a).length (trim b).length := by
  have hmin := t.minThreshold_le_effectiveThreshold
  rcases Nat.le_total (significantBits a) (significantBits b) with hab | hab
  · have := sixteen_le_length_trim (a := b) (by omega)
    omega
  · have := sixteen_le_length_trim (a := a) (by omega)
    omega

theorem packed_length_lt {t : Tuning} {a b : Words}
    (h : ¬ max (significantBits a) (significantBits b) < t.effectiveThreshold) :
    ((plan a b).pack (trim a)).length + ((plan a b).pack (trim b)).length <
      a.length + b.length := by
  rw [Plan.length_pack, Plan.length_pack]
  have hlt := Plan.packedLength_add_lt (sixteen_le_max_length_trim h)
  have ha := length_trim_le a
  have hb := length_trim_le b
  simp only [plan, Limits.bitsPerWord]
  omega

theorem halves_length_lt {t : Tuning} {a b : Words} (x y : Words)
    (h : ¬ max (significantBits a) (significantBits b) < t.effectiveThreshold) :
    (x.take (plan a b).ringWords).length + (y.take (plan a b).ringWords).length <
      a.length + b.length := by
  have hlt := Plan.two_mul_ringWords_lt (sixteen_le_max_length_trim h)
  have hx := List.length_take_le (plan a b).ringWords x
  have hy := List.length_take_le (plan a b).ringWords y
  have ha := length_trim_le a
  have hb := length_trim_le b
  simp only [plan, Limits.bitsPerWord] at *
  omega

/-- The product of two vectors, as long as both together. -/
def multiply (t : Tuning) (a b : Words) : Product :=
  if significantBits a = 0 ∨ significantBits b = 0 then
    { words := zeros (a.length + b.length), route := .direct }
  else if max (significantBits a) (significantBits b) < t.effectiveThreshold then
    { words := longProduct a b, route := .direct }
  else
    let p := plan a b
    let spectra := (spectrum p (trim a)).zip (spectrum p (trim b))
    assemble p (a.length + b.length) spectra
      (multiply t (p.pack (trim a)) (p.pack (trim b)))
      (spectra.map fun xy => multiply t (xy.1.take p.ringWords) (xy.2.take p.ringWords))
termination_by a.length + b.length
decreasing_by
  · exact packed_length_lt (by assumption)
  · exact halves_length_lt _ _ (by assumption)

theorem packed_square_length_lt {t : Tuning} {a : Words}
    (h : ¬ significantBits a < t.effectiveThreshold) :
    ((plan a a).pack (trim a)).length < a.length := by
  have := packed_length_lt (t := t) (a := a) (b := a) (by omega)
  omega

/-- The square of a vector, twice as long; the operand is transformed once. -/
def square (t : Tuning) (a : Words) : Product :=
  if significantBits a = 0 then
    { words := zeros (2 * a.length), route := .direct }
  else if significantBits a < t.effectiveThreshold then
    { words := longProduct a a, route := .direct }
  else
    let p := plan a a
    let spectrum := spectrum p (trim a)
    assemble p (2 * a.length) (spectrum.map fun x => (x, x))
      (square t (p.pack (trim a)))
      (spectrum.map fun x => multiply t (x.take p.ringWords) (x.take p.ringWords))
termination_by a.length
decreasing_by exact packed_square_length_lt (by assumption)

end Product

end FermatMul
