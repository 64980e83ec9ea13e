import FermatMul.Refusal
import FermatMul.Words.Rotation

/-!
Residues modulo `2 ^ N + 1` in `2 N` bits: a vector stands for its low half minus its high half.
Since `2 ^ (2 N)` is one in this ring, sums may wrap around the end of the vector and a rotation
by `k` bits multiplies by `2 ^ k`.
-/

namespace FermatMul.Residue

open FermatMul.Words

/-- The low half minus the high half. -/
def value (a : Words) : Int :=
  (toNat (a.take (a.length / 2)) : Int) - toNat (a.drop (a.length / 2))

/-- The canonical vector of a residue: the high half is taken from the low one and cleared, and a
borrow is repaired by adding one, which reaches the high half exactly for `2 ^ N`. -/
def fold (a : Words) : Words :=
  let half := a.length / 2
  let low := subBorrow (a.take half) (a.drop half) false
  let folded := low.1 ++ zeros (a.length - half)
  if low.2 then (ripple folded 1).1 else folded

/-- Addition with the carry out of the top fed back in at the bottom. -/
def addWrap (a b : Words) : Words :=
  let sum := addCarry a b false
  if sum.2 then (ripple sum.1 1).1 else sum.1

/-- Subtraction as the addition of the second residue with its halves exchanged. -/
def subWrap (a b : Words) : Words :=
  addWrap a (rotateLeft b (16 * a.length))

def subLow (a b : Words) (bits : Nat) : Words :=
  truncate bits (subBorrow a b false).1

/-- Whether the high half of a canonical vector is one, so that it stands for minus one. -/
def isMinusOne (a : Words) : Bool :=
  wordAt a (a.length / 2) == 1

/-- Completes the product of two canonical low halves: minus one has a zero low half, so each such
factor still has to negate the other one. -/
def foldSigns (a b product : Words) : Words :=
  let half := a.length / 2
  match isMinusOne a, isMinusOne b with
  | true, true => product.set 0 1
  | true, false => addAt product (b.take half) half
  | false, true => addAt product (a.take half) half
  | false, false => product

def requireShape (op : ResidueOp) (a : Words) : Except Refusal Unit :=
  if a.length ≠ 0 ∧ a.length % 2 = 0 then .ok () else .error (.residueShape op a.length)

def requirePair (op : ResidueOp) (a b : Words) : Except Refusal Unit := do
  requireShape op a
  if a.length = b.length then .ok () else .error (.lengthMismatch op a.length b.length)

def reduce (a : Words) : Except Refusal Words := do
  requireShape .reduce a
  return fold a

def add (a b : Words) : Except Refusal Words := do
  requirePair .add a b
  return addWrap a b

def sub (a b : Words) : Except Refusal Words := do
  requirePair .sub a b
  return subWrap a b

def subTruncated (a b : Words) (bits : Nat) : Except Refusal Words :=
  if wordsFor bits ≤ a.length ∧ wordsFor bits ≤ b.length then .ok (subLow a b bits)
  else .error (.shortOperand bits (wordsFor bits) a.length b.length)

@[simp] theorem length_fold (a : Words) : (fold a).length = a.length := by
  simp only [fold]
  split <;> simp <;> omega

@[simp] theorem length_addWrap (a b : Words) : (addWrap a b).length = a.length := by
  simp only [addWrap]
  split <;> simp

@[simp] theorem length_subWrap (a b : Words) : (subWrap a b).length = a.length := by
  simp [subWrap]

@[simp] theorem length_subLow (a b : Words) (bits : Nat) :
    (subLow a b bits).length = a.length := by
  simp [subLow]

@[simp] theorem length_foldSigns (a b product : Words) :
    (foldSigns a b product).length = product.length := by
  simp only [foldSigns]
  split <;> simp

end FermatMul.Residue
