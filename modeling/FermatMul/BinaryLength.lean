import FermatMul.Limits

namespace FermatMul

open scoped FermatMul.CorePower

/-- The number of binary digits of `n`, none for zero. -/
def binaryLength (n : Nat) : Nat :=
  if n = 0 then 0 else n.log2 + 1

@[simp] theorem binaryLength_zero : binaryLength 0 = 0 := rfl

theorem binaryLength_le_iff {n k : Nat} : binaryLength n ≤ k ↔ n < 2 ^ k := by
  unfold binaryLength
  split
  · next h => exact iff_of_true (Nat.zero_le k) (h ▸ Nat.two_pow_pos k)
  · next h => rw [Nat.add_one_le_iff, Nat.log2_lt h]

theorem lt_two_pow_binaryLength (n : Nat) : n < 2 ^ binaryLength n :=
  binaryLength_le_iff.mp (Nat.le_refl _)

theorem lt_binaryLength_iff {n k : Nat} : k < binaryLength n ↔ 2 ^ k ≤ n := by
  rw [← Nat.not_le, binaryLength_le_iff, Nat.not_lt]

theorem binaryLength_eq_zero_iff {n : Nat} : binaryLength n = 0 ↔ n = 0 := by
  unfold binaryLength
  split <;> simp_all

end FermatMul
