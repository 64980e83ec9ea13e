import FermatMul.Product.Integer
import FermatMul.Proofs.Product.Exactness
import FermatMul.Proofs.Words.ByteOrder

namespace FermatMul.Integer

open FermatMul.Words

theorem toNat_ofMagnitude (n : Nat) : toNat (ofMagnitude n) = n := by
  rw [ofMagnitude, toNat_ofBytes]
  exact Bytes.ofBigEndian_bigEndian n

theorem ofWords_eq (negative : Bool) (a : Words) :
    ofWords negative a = if negative then -(toNat a : Int) else toNat a := by
  simp only [ofWords, Bytes.ofBigEndian, List.reverse_reverse, ofLittleEndian_toBytes]

theorem sign_mul_natAbs {a b : Int} (ha : a ≠ 0) (hb : b ≠ 0) :
    (if decide (a < 0) != decide (b < 0) then -((a.natAbs * b.natAbs : Nat) : Int)
      else (a.natAbs * b.natAbs : Nat)) = a * b := by
  push_cast
  rcases Int.lt_or_gt_of_ne ha with ha | ha <;> rcases Int.lt_or_gt_of_ne hb with hb | hb
  · simp [ha, hb, abs_of_neg]
  · simp [ha, not_lt_of_gt hb, abs_of_neg ha, abs_of_pos hb]
  · simp [hb, not_lt_of_gt ha, abs_of_neg hb, abs_of_pos ha]
  · simp [not_lt_of_gt ha, not_lt_of_gt hb, abs_of_pos ha, abs_of_pos hb]

theorem value_multiply (t : Tuning) (a b : Int) : (multiply t a b).value = a * b := by
  rw [multiply]
  split
  case isTrue hzero =>
    rcases hzero with rfl | rfl
    · exact (Int.zero_mul b).symm
    · exact (Int.mul_zero a).symm
  case isFalse hne =>
    obtain ⟨ha, hb⟩ := not_or.mp hne
    have hproduct :=
      (Product.multiply_isProduct t (ofMagnitude a.natAbs) (ofMagnitude b.natAbs)).toNat_eq
    rw [toNat_ofMagnitude, toNat_ofMagnitude] at hproduct
    simp only [ofWords_eq, hproduct]
    exact sign_mul_natAbs ha hb

theorem value_square (t : Tuning) (a : Int) : (square t a).value = a * a := by
  rw [square]
  split
  case isTrue hzero =>
    subst hzero
    rfl
  case isFalse hne =>
    have hproduct := (Product.square_isProduct t (ofMagnitude a.natAbs)).toNat_eq
    rw [toNat_ofMagnitude] at hproduct
    simp only [ofWords_eq, hproduct, Bool.false_eq_true, if_false]
    exact Int.natAbs_mul_self

theorem multiplyNat_eq (a b : Nat) : multiplyNat a b = a * b := by
  rw [multiplyNat, ofLittleEndian_toBytes, (Product.multiply_isProduct _ _ _).toNat_eq,
    toNat_ofMagnitude, toNat_ofMagnitude]

/-- Products and squares of integers are exact, whatever the settings. -/
theorem integer_products_exact (t : Tuning) (a b : Int) (x y : Nat) :
    (multiply t a b).value = a * b ∧ (square t a).value = a * a ∧ multiplyNat x y = x * y :=
  ⟨value_multiply t a b, value_square t a, multiplyNat_eq x y⟩

end FermatMul.Integer
