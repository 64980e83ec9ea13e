import FermatMul.BinaryLength
import FermatMul.Product.Basic
import FermatMul.Words.Bytes

namespace FermatMul.Integer

structure Traced where
  value : Int
  events : List Event
  deriving Repr

/-- The words of a natural number, at least one. -/
def ofMagnitude (n : Nat) : Words :=
  Words.ofBytes (Bytes.bigEndian n).reverse

def ofWords (negative : Bool) (a : Words) : Int :=
  let magnitude := Bytes.ofBigEndian (Words.toBytes a).reverse
  if negative then -magnitude else magnitude

/-- The product of two integers and its events; a zero product reports none. -/
def multiply (t : Tuning) (a b : Int) : Traced :=
  if a = 0 ∨ b = 0 then { value := 0, events := [] }
  else
    let product := Product.multiply t (ofMagnitude a.natAbs) (ofMagnitude b.natAbs)
    { value := ofWords (decide (a < 0) != decide (b < 0)) product.words
      events :=
        .multiply (binaryLength a.natAbs) (binaryLength b.natAbs) t.threshold ::
          product.route.events t }

/-- The square of an integer and its events; the square of zero reports none. -/
def square (t : Tuning) (a : Int) : Traced :=
  if a = 0 then { value := 0, events := [] }
  else
    let product := Product.square t (ofMagnitude a.natAbs)
    { value := ofWords false product.words
      events := .square (binaryLength a.natAbs) t.threshold :: product.route.events t }

def multiplyNat (a b : Nat) : Nat :=
  Bytes.ofLittleEndian
    (Words.toBytes (Product.multiply {} (ofMagnitude a) (ofMagnitude b)).words)

end FermatMul.Integer
