import Mathlib.Data.ZMod.Basic
import FermatMul.Proofs.Words.RotatedBits
import FermatMul.Residue.Basic

namespace FermatMul.Residue

open FermatMul.Words

/-- The integers modulo `2 ^ N + 1`, where `N` is the bits of `half` words. -/
abbrev FermatRing (half : Nat) := ZMod (2 ^ (32 * half) + 1)

/-- The element of the ring that a vector of twice `half` words stands for. -/
def residue (half : Nat) (a : Words) : FermatRing half := (toNat a : FermatRing half)

variable {half : Nat} {a b product : Words}

theorem two_pow_half (half : Nat) : (2 : FermatRing half) ^ (32 * half) = -1 := by
  have h : ((2 ^ (32 * half) + 1 : Nat) : FermatRing half) = 0 := ZMod.natCast_self _
  push_cast at h
  exact eq_neg_of_add_eq_zero_left h

theorem two_pow_eq_neg_one {bits : Nat} (h : bits = 32 * half) :
    (2 : FermatRing half) ^ bits = -1 := by
  subst h
  exact two_pow_half half

theorem isUnit_two_pow (hne : half ≠ 0) (bits : Nat) :
    IsUnit ((2 : FermatRing half) ^ bits) := by
  have hunit : IsUnit ((2 : FermatRing half) ^ (32 * half)) := by
    rw [two_pow_half]
    exact isUnit_one.neg
  exact ((isUnit_pow_iff (by omega)).mp hunit).pow bits

theorem cast_eq_of_modEq {x y : Nat} (h : x ≡ y [MOD 2 ^ (32 * (2 * half)) - 1]) :
    (x : FermatRing half) = y := by
  have hfactor : 2 ^ (32 * (2 * half)) - 1 = (2 ^ (32 * half) + 1) * (2 ^ (32 * half) - 1) := by
    have hdouble : 32 * (2 * half) = 32 * half + 32 * half := by ring
    rw [hdouble, Nat.pow_add, Nat.add_mul, Nat.mul_sub, Nat.mul_one, Nat.one_mul]
    have hpos : 1 ≤ 2 ^ (32 * half) := Nat.one_le_two_pow
    have hsquare : 2 ^ (32 * half) ≤ 2 ^ (32 * half) * 2 ^ (32 * half) :=
      Nat.le_mul_of_pos_left _ hpos
    omega
  exact (ZMod.natCast_eq_natCast_iff _ _ _).mpr (h.of_dvd (Dvd.intro _ hfactor.symm))

theorem intCast_eq_iff {x y : Int} :
    (x : FermatRing half) = y ↔ x ≡ y [ZMOD 2 ^ (32 * half) + 1] := by
  rw [ZMod.intCast_eq_intCast_iff]
  push_cast
  rfl

theorem half_eq (ha : a.length = 2 * half) : a.length / 2 = half := by
  omega

theorem residue_eq_value (ha : a.length = 2 * half) :
    residue half a = (value a : FermatRing half) := by
  rw [residue, value, half_eq ha, ← toNat_take_add_drop a half]
  push_cast
  rw [two_pow_half]
  ring

/-- A sum that passes the end of the vector comes back as one at its bottom, and only once. -/
theorem toNat_addWrap (hlen : b.length = a.length) :
    toNat (addWrap a b) =
      if toNat a + toNat b < 2 ^ (32 * a.length) then toNat a + toNat b
      else toNat a + toNat b + 1 - 2 ^ (32 * a.length) := by
  let sum := addCarry a b false
  have ha := toNat_lt a
  have hb := toNat_lt b
  rw [hlen] at hb
  have hsum : toNat sum.1 + 2 ^ (32 * a.length) * sum.2.toNat = toNat a + toNat b :=
    toNat_addCarry_of_length_eq hlen
  have hsumLt : toNat sum.1 < 2 ^ (32 * a.length) := by
    have h := toNat_lt sum.1
    rwa [length_addCarry] at h
  change toNat (if sum.2 then (ripple sum.1 1).1 else sum.1) = _
  cases hcarry : sum.2 with
  | false =>
      rw [hcarry, Bool.toNat_false, Nat.mul_zero, Nat.add_zero] at hsum
      change toNat sum.1 = _
      rw [if_pos (by omega), hsum]
  | true =>
      rw [hcarry, Bool.toNat_true, Nat.mul_one] at hsum
      have hripple : toNat (ripple sum.1 1).1 = toNat sum.1 + 1 :=
        toNat_ripple_of_lt (by
          rw [length_addCarry, UInt32.toNat_one]
          omega)
      change toNat (ripple sum.1 1).1 = _
      rw [if_neg (by omega)]
      omega

theorem toNat_addWrap_modEq (hlen : b.length = a.length) :
    toNat (addWrap a b) ≡ toNat a + toNat b [MOD 2 ^ (32 * a.length) - 1] := by
  have hvalue := toNat_addWrap hlen
  split at hvalue
  · rw [hvalue]
  · next hpasses =>
      have hturn : toNat a + toNat b = toNat (addWrap a b) + (2 ^ (32 * a.length) - 1) := by
        have := Nat.two_pow_pos (32 * a.length)
        omega
      rw [hturn]
      exact (Nat.add_mod_right _ _).symm

theorem residue_addWrap (ha : a.length = 2 * half) (hb : b.length = 2 * half) :
    residue half (addWrap a b) = residue half a + residue half b := by
  have h := toNat_addWrap_modEq (hb.trans ha.symm)
  rw [ha] at h
  have hcast := cast_eq_of_modEq h
  push_cast at hcast
  exact hcast

theorem residue_rotateLeft (ha : a.length = 2 * half) (bits : Nat) :
    residue half (rotateLeft a bits) = 2 ^ bits * residue half a := by
  have h := toNat_rotateLeft_modEq a bits
  rw [ha] at h
  have hcast := cast_eq_of_modEq h
  push_cast at hcast
  exact hcast

theorem two_pow_mul_residue_rotateRight (ha : a.length = 2 * half) (bits : Nat) :
    2 ^ bits * residue half (rotateRight a bits) = residue half a := by
  have hlen : (rotateRight a bits).length = 2 * half := by rw [length_rotateRight, ha]
  rw [← residue_rotateLeft hlen, rotateLeft_rotateRight]

theorem residue_rotateRight (ha : a.length = 2 * half) (hne : half ≠ 0) (bits : Nat) :
    residue half (rotateRight a bits) = 2⁻¹ ^ bits * residue half a := by
  have hinverse : (2 : FermatRing half)⁻¹ * 2 = 1 :=
    ZMod.inv_mul_of_unit 2 (by simpa using isUnit_two_pow hne 1)
  rw [← two_pow_mul_residue_rotateRight ha bits, ← mul_assoc, ← mul_pow, hinverse, one_pow,
    one_mul]

theorem residue_subWrap (ha : a.length = 2 * half) (hb : b.length = 2 * half) :
    residue half (subWrap a b) = residue half a - residue half b := by
  have hbits : 16 * a.length = 32 * half := by omega
  rw [subWrap, residue_addWrap ha (by simp [hb]), residue_rotateLeft hb, hbits, two_pow_half]
  ring

end FermatMul.Residue
