import FermatMul.Proofs.Residue.Congruence

namespace FermatMul.Residue

open FermatMul.Words

variable {half : Nat} {a : Words}

theorem value_rotateLeft_modEq (ha : a.length = 2 * half) (k : Nat) :
    value (rotateLeft a k) ≡ 2 ^ k * value a [ZMOD 2 ^ (32 * half) + 1] := by
  have hlen : (rotateLeft a k).length = 2 * half := by rw [length_rotateLeft, ha]
  rw [← intCast_eq_iff, ← residue_eq_value hlen, residue_rotateLeft ha, Int.cast_mul, Int.cast_pow,
    ← residue_eq_value ha]
  rfl

theorem rotateLeft_half (ha : a.length = 2 * half) (hne : a ≠ []) :
    rotateLeft a (32 * half) = a.drop half ++ a.take half := by
  have hpos : 0 < a.length := List.length_pos_iff.mpr hne
  apply eq_of_toNat_eq
  · rw [length_rotateLeft, List.length_append, List.length_drop, List.length_take]
    omega
  · have hmoved : toNat (rotateWords a half) = turned (32 * a.length) (32 * half) (toNat a) :=
      toNat_rotateWords (by omega)
    have hrest : a.length - half = half := by omega
    rw [toNat_rotateLeft hne, Nat.mod_eq_of_lt (by omega), ← hmoved, rotateWords, hrest]

theorem value_rotateLeft_half (ha : a.length = 2 * half) (hne : a ≠ []) :
    value (rotateLeft a (32 * half)) = -value a := by
  have hlen : (a.drop half).length = half := by
    rw [List.length_drop]
    omega
  rw [value, value, length_rotateLeft, half_eq ha, rotateLeft_half ha hne, List.take_left' hlen,
    List.drop_left' hlen, neg_sub]

/-- Rotations by all amounts act on the vectors of one length: each moves every bit up by its amount
around the end, two are one by the sum of the amounts, and the one to the right is the inverse. On
values they are products with powers of two, modulo one less than the power at the top. So they are
such products on residues too, and the rotation by half of the vector is the negation. -/
theorem rotations_exact (a : Words) (hne : a ≠ []) :
    let total := 32 * a.length
    (∀ k, (rotateLeft a k).length = a.length ∧
      (∀ p < total, bit (rotateLeft a k) ((p + k) % total) = bit a p) ∧
      rotateRight (rotateLeft a k) k = a ∧ rotateLeft (rotateRight a k) k = a ∧
      toNat (rotateLeft a k) ≡ 2 ^ k * toNat a [MOD 2 ^ total - 1]) ∧
    rotateLeft a 0 = a ∧
    (∀ i j, rotateLeft (rotateLeft a i) j = rotateLeft a ((i % total + j % total) % total)) ∧
    ∀ half, a.length = 2 * half →
      (∀ k, value (rotateLeft a k) ≡ 2 ^ k * value a [ZMOD 2 ^ (32 * half) + 1]) ∧
      value (rotateLeft a (32 * half)) = -value a := by
  intro total
  refine ⟨?_, rotateLeft_zero a, ?_, ?_⟩
  · intro k
    exact ⟨length_rotateLeft a k, fun p hp => bit_rotateLeft a k hp, rotateRight_rotateLeft a k,
      rotateLeft_rotateRight a k, toNat_rotateLeft_modEq a k⟩
  · intro i j
    rw [rotateLeft_rotateLeft, ← Nat.add_mod, rotateLeft_mod]
  · intro half ha
    exact ⟨value_rotateLeft_modEq ha, value_rotateLeft_half ha hne⟩

/-- Three words turned by more than their length, and two exchanged. -/
theorem rotations_exact_three :
    let a : Words := [0xdeadbeef, 0x01234567, 42]
    (a ≠ [] ∧ bit (rotateLeft a 1000) 40 = true ∧ rotateRight (rotateLeft a 1000) 1000 = a ∧
      rotateLeft (rotateLeft a 95) 65 = rotateLeft a 64) ∧
    value (rotateLeft [7, 9] 32) = 2 ∧
      value (rotateLeft [7, 9] 33) ≡ 4 [ZMOD 2 ^ 32 + 1] := by
  intro a
  have hne : a ≠ [] := List.cons_ne_nil _ _
  have hposition : (0 + 1000) % (32 * a.length) = 40 := by decide
  have hamount : (95 % (32 * a.length) + 65 % (32 * a.length)) % (32 * a.length) = 64 := by decide
  obtain ⟨hall, _, hsum, _⟩ := rotations_exact a hne
  obtain ⟨_, hbits, hback, _⟩ := hall 1000
  obtain ⟨_, _, _, hhalves⟩ := rotations_exact [7, 9] (List.cons_ne_nil 7 [9])
  obtain ⟨hpowers, hexchanged⟩ := hhalves 1 rfl
  have hbit := hbits 0 (by decide)
  have hturns := hsum 95 65
  rw [hposition] at hbit
  rw [hamount] at hturns
  exact ⟨⟨hne, hbit.trans (by decide), hback, hturns⟩, hexchanged.trans (by decide),
    (hpowers 33).trans (by decide)⟩

end FermatMul.Residue
