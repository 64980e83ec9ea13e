import FermatMul.Limits

namespace FermatMul.BitReversal

open scoped FermatMul.CorePower

/-- Adds one to a counter of `k` bits that is read from its top bit downwards: the carry clears
set bits from the top until it finds a clear one. -/
def next : Nat → Nat → Nat
  | 0, counter => counter
  | k + 1, counter =>
      if counter.testBit k then next k (counter ^^^ 2 ^ k) else counter ^^^ 2 ^ k

/-- The reversal of `i` in `k` bits, as the state of the counter after `i` steps. -/
def reversed (k : Nat) : Nat → Nat
  | 0 => 0
  | i + 1 => next k (reversed k i)

/-- Exchanges the elements at `i` and at the counter `j`, where `i` comes first. -/
def exchange {α : Type} (xs : Array α) (i j : Nat) : Array α :=
  if i < j then xs.swapIfInBounds i j else xs

def steps {α : Type} (k : Nat) : List Nat → Nat → Array α → Array α
  | [], _, xs => xs
  | i :: is, counter, xs =>
      let counter := next k counter
      steps k is counter (exchange xs i counter)

/-- Puts the element at index `i` where the reversed binary digits of `i` point. -/
def permute {α : Type} (xs : Array α) : Array α :=
  steps xs.size.log2 (List.range' 1 (xs.size - 1)) 0 xs

@[simp] theorem size_exchange {α : Type} (xs : Array α) (i j : Nat) :
    (exchange xs i j).size = xs.size := by
  simp only [exchange]
  split <;> simp

@[simp] theorem size_steps {α : Type} (k : Nat) (is : List Nat) (counter : Nat) (xs : Array α) :
    (steps k is counter xs).size = xs.size := by
  induction is generalizing counter xs with
  | nil => rfl
  | cons i is ih => simp [steps, ih]

@[simp] theorem size_permute {α : Type} (xs : Array α) : (permute xs).size = xs.size := by
  simp [permute]

end FermatMul.BitReversal
