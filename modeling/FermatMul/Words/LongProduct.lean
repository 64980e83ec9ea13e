import FermatMul.Words.Carry

namespace FermatMul.Words

/-- Adds `x` times the first vector to the low words of the second; the carry out of the row is
written into the word above it. -/
def addRow (x : UInt32) : Words → Words → UInt32 → Words
  | y :: ys, c :: cs, carry =>
      let cell := mulAdd x y c carry
      cell.1 :: addRow x ys cs cell.2
  | [], _ :: cs, carry => carry :: cs
  | _, [], _ => []

/-- Adds the rows of a long multiplication to an accumulator, each one word further up than the
one before; the row of a zero word is skipped. -/
def addRows (b : Words) : Words → Words → Words
  | [], acc => acc
  | x :: xs, acc =>
      match if x = 0 then acc else addRow x b acc 0 with
      | [] => []
      | c :: cs => c :: addRows b xs cs

/-- The product by long multiplication, as long as both factors together. -/
def longProduct (a b : Words) : Words :=
  addRows b a (zeros (a.length + b.length))

@[simp] theorem length_addRow (x : UInt32) (b acc : Words) (carry : UInt32) :
    (addRow x b acc carry).length = acc.length := by
  fun_induction addRow x b acc carry <;> simp_all +zetaDelta

@[simp] theorem length_addRows (b a acc : Words) : (addRows b a acc).length = acc.length := by
  induction a generalizing acc with
  | nil => rfl
  | cons x xs ih =>
      have hrow : (if x = 0 then acc else addRow x b acc 0).length = acc.length := by
        split <;> simp
      rw [addRows]
      split
      · next h => simpa [h] using hrow
      · next h => simpa [h, ih] using hrow

@[simp] theorem length_longProduct (a b : Words) :
    (longProduct a b).length = a.length + b.length := by
  simp [longProduct]

end FermatMul.Words
