import FermatMul.Proofs.Words.Bits
import FermatMul.Proofs.Words.Rotation

namespace FermatMul.Words

variable {a b : Words} {k position : Nat}

theorem testBit_turned {total places value : Nat} (hplaces : places ≤ total)
    (hvalue : value < 2 ^ total) (hposition : position < total) :
    (turned total places value).testBit ((position + places) % total) =
      value.testBit position := by
  have hlow : value / 2 ^ (total - places) < 2 ^ places := by
    rwa [Nat.div_lt_iff_lt_mul (Nat.two_pow_pos _), ← Nat.pow_add, Nat.add_sub_cancel' hplaces]
  rw [turned, Nat.add_comm, Nat.testBit_two_pow_mul_add _ hlow]
  rcases Nat.lt_or_ge (position + places) total with hstays | hpasses
  · have hkept : position < total - places := by omega
    rw [Nat.mod_eq_of_lt hstays, if_neg (by omega), Nat.add_sub_cancel, Nat.testBit_mod_two_pow,
      decide_eq_true hkept, Bool.true_and]
  · have hturn : (position + places) % total = position + places - total := by
      rw [Nat.mod_eq_sub_mod hpasses, Nat.mod_eq_of_lt (by omega)]
    have hsource : position + places - total + (total - places) = position := by omega
    rw [hturn, if_pos (by omega), Nat.testBit_div_two_pow, hsource]

/-- What a rotation does to one bit. -/
theorem bit_rotateLeft (a : Words) (k : Nat) (hposition : position < 32 * a.length) :
    bit (rotateLeft a k) ((position + k) % (32 * a.length)) = bit a position := by
  have hne : a ≠ [] := by
    rintro rfl
    simp at hposition
  have hplaces : k % (32 * a.length) < 32 * a.length := Nat.mod_lt _ (Nat.zero_lt_of_lt hposition)
  rw [bit_eq_testBit, toNat_rotateLeft hne, ← Nat.add_mod_mod, bit_eq_testBit]
  exact testBit_turned hplaces.le (toNat_lt a) hposition

/-- A rotation is determined by where it takes the bits. -/
theorem eq_rotateLeft (hlen : b.length = a.length)
    (h : ∀ p < 32 * a.length, bit b ((p + k) % (32 * a.length)) = bit a p) :
    b = rotateLeft a k := by
  apply eq_of_bit_eq
  · rw [length_rotateLeft, hlen]
  · intro position
    rcases Nat.lt_or_ge position (32 * a.length) with hlt | hge
    · let total := 32 * a.length
      have hamount : k % total < total := Nat.mod_lt _ (Nat.zero_lt_of_lt hlt)
      let source := (position + (total - k % total)) % total
      have hsource : source < total := Nat.mod_lt _ (Nat.zero_lt_of_lt hlt)
      have hback : (source + k) % total = position := by
        have hturn : position + (total - k % total) + k % total = position + total := by omega
        rw [Nat.mod_add_mod, ← Nat.add_mod_mod, hturn, Nat.add_mod_right, Nat.mod_eq_of_lt hlt]
      have hboth := (h source hsource).trans (bit_rotateLeft a k hsource).symm
      rwa [hback] at hboth
    · rw [bit_eq_false_of_lt (toNat_lt b) (by omega),
        bit_eq_false_of_lt (toNat_lt _) (by rwa [length_rotateLeft])]

theorem rotateLeft_mod (a : Words) (k : Nat) :
    rotateLeft a (k % (32 * a.length)) = rotateLeft a k := by
  apply eq_rotateLeft (length_rotateLeft ..)
  intro p hp
  rw [← Nat.add_mod_mod]
  exact bit_rotateLeft a _ hp

@[simp] theorem rotateLeft_zero (a : Words) : rotateLeft a 0 = a := by
  symm
  apply eq_rotateLeft rfl
  intro p hp
  rw [Nat.add_zero, Nat.mod_eq_of_lt hp]

theorem rotateLeft_rotateLeft (a : Words) (i j : Nat) :
    rotateLeft (rotateLeft a i) j = rotateLeft a (i + j) := by
  apply eq_rotateLeft (by simp)
  intro p hp
  have hmoved : (p + i) % (32 * a.length) < 32 * (rotateLeft a i).length := by
    rw [length_rotateLeft]
    exact Nat.mod_lt _ (Nat.zero_lt_of_lt hp)
  have hsecond := bit_rotateLeft (rotateLeft a i) j hmoved
  rw [length_rotateLeft, Nat.mod_add_mod, Nat.add_assoc, bit_rotateLeft a i hp] at hsecond
  exact hsecond

/-- The amount of a rotation and of the one that undoes it make up whole turns. -/
theorem add_back_mod {total : Nat} (h : 0 < total) (k : Nat) :
    (k + (total - k % total)) % total = 0 := by
  have hlt : k % total < total := Nat.mod_lt _ h
  rw [← Nat.mod_add_mod, Nat.add_sub_cancel' hlt.le, Nat.mod_self]

theorem rotateRight_eq (a : Words) (k : Nat) :
    rotateRight a k = rotateLeft a (32 * a.length - k % (32 * a.length)) := rfl

theorem rotateRight_rotateLeft (a : Words) (k : Nat) : rotateRight (rotateLeft a k) k = a := by
  rcases eq_or_ne a [] with rfl | hne
  · rw [rotateLeft_nil, rotateRight_nil]
  · have hpos : 0 < 32 * a.length := Nat.mul_pos (by omega) (List.length_pos_iff.mpr hne)
    rw [rotateRight_eq, length_rotateLeft, rotateLeft_rotateLeft, ← rotateLeft_mod,
      add_back_mod hpos, rotateLeft_zero]

theorem rotateLeft_rotateRight (a : Words) (k : Nat) : rotateLeft (rotateRight a k) k = a := by
  calc
    rotateLeft (rotateRight a k) k =
        rotateLeft (rotateLeft a k) (32 * a.length - k % (32 * a.length)) := by
      rw [rotateRight_eq, rotateLeft_rotateLeft, Nat.add_comm, ← rotateLeft_rotateLeft]
    _ = rotateRight (rotateLeft a k) k := by rw [rotateRight_eq, length_rotateLeft]
    _ = a := rotateRight_rotateLeft a k

end FermatMul.Words
