import FermatMul.BinaryLength
import FermatMul.Limits

namespace FermatMul

/-- Vectors of 32-bit words, least significant word first. -/
abbrev Words := List UInt32

namespace Words

open scoped FermatMul.CorePower

/-- The natural number that a vector denotes. -/
def toNat : Words → Nat
  | [] => 0
  | w :: ws => w.toNat + 2 ^ (32 : Nat) * toNat ws

@[simp] theorem toNat_nil : toNat [] = 0 := rfl

@[simp] theorem toNat_cons (w : UInt32) (ws : Words) :
    toNat (w :: ws) = w.toNat + 2 ^ (32 : Nat) * toNat ws := rfl

def zeros (n : Nat) : Words := List.replicate n 0

@[simp] theorem length_zeros (n : Nat) : (zeros n).length = n := List.length_replicate

@[simp] theorem toNat_zeros (n : Nat) : toNat (zeros n) = 0 := by
  induction n with
  | zero => rfl
  | succ n ih => rw [zeros, List.replicate_succ, toNat_cons, ← zeros, ih]; rfl

def wordsFor (bits : Nat) : Nat :=
  (bits + 31) / Limits.bitsPerWord

def significantBits : Words → Nat
  | [] => 0
  | w :: ws =>
      let upper := significantBits ws
      if upper = 0 then binaryLength w.toNat else Limits.bitsPerWord + upper

/-- The vector without the zero words at its top. -/
def trim (a : Words) : Words :=
  a.take (wordsFor (significantBits a))

theorem wordsFor_le_iff {bits n : Nat} : wordsFor bits ≤ n ↔ bits ≤ 32 * n := by
  simp only [wordsFor, Limits.bitsPerWord]
  omega

theorem significantBits_le (a : Words) : significantBits a ≤ 32 * a.length := by
  induction a with
  | nil => simp [significantBits]
  | cons w ws ih =>
      have hw : binaryLength w.toNat ≤ 32 := binaryLength_le_iff.mpr w.toNat_lt
      simp only [significantBits, Limits.bitsPerWord, List.length_cons]
      split <;> omega

@[simp] theorem length_trim (a : Words) : (trim a).length = wordsFor (significantBits a) := by
  rw [trim, List.length_take]
  exact Nat.min_eq_left (wordsFor_le_iff.mpr (significantBits_le a))

theorem length_trim_le (a : Words) : (trim a).length ≤ a.length := by
  rw [length_trim]
  exact wordsFor_le_iff.mpr (significantBits_le a)

end Words

end FermatMul
