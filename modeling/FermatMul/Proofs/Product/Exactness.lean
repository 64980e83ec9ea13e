import FermatMul.Proofs.Product.Recursion
import FermatMul.Proofs.Words.LongMultiplication

namespace FermatMul

open FermatMul.Words

namespace Product

theorem isProduct_zeros {a b : Words} (h : toNat a * toNat b = 0) :
    IsProduct a b { words := zeros (a.length + b.length), route := .direct } :=
  ⟨length_zeros _, by rw [toNat_zeros, h]⟩

theorem isProduct_longProduct (a b : Words) :
    IsProduct a b { words := longProduct a b, route := .direct } :=
  ⟨length_longProduct a b, toNat_longProduct a b⟩

end Product

namespace Factors

theorem isProduct_direct (f : Factors) : Product.IsProduct f.left f.right f.direct := by
  rw [direct]
  split
  case isTrue hzero =>
    rw [significantBits_eq_zero_iff, significantBits_eq_zero_iff] at hzero
    exact Product.isProduct_zeros (Nat.mul_eq_zero.mpr hzero)
  case isFalse hne => exact Product.isProduct_longProduct f.left f.right

theorem isProduct (t : Tuning) (f : Factors) :
    Product.IsProduct f.left f.right (f.product t) := by
  -- on the length: one level asks for the low halves of any vectors, not only of the spectra
  induction hsize : f.totalLength using Nat.strong_induction_on generalizing f with
  | _ size ih =>
      subst hsize
      by_cases h : f.Long t
      · obtain ⟨hleft, hright⟩ := h.fits
        have hshort := Nat.lt_of_lt_of_le h.totalLength_packed_lt f.trimmedLength_le
        have hpacked := ih _ hshort f.packed rfl
        rw [packed_left, packed_right] at hpacked
        rw [product_of_long h, pointwise, List.map_map, spectra_eq_zip]
        refine Product.assemble_isProduct hleft hright hpacked ?_
        intro xy
        exact ih _ (Product.halves_length_lt xy.1 xy.2 h.2) (pair _ _) rfl
      · rw [product_of_not_long h]
        exact f.isProduct_direct

end Factors

namespace Product

theorem multiply_isProduct (t : Tuning) (a b : Words) : IsProduct a b (multiply t a b) :=
  (Factors.pair a b).isProduct t

theorem square_isProduct (t : Tuning) (a : Words) : IsProduct a a (square t a) :=
  (Factors.twice a).isProduct t

/-- Products and squares are those of the values, at the length of both operands together. So a
product is word for word the one by long multiplication, whatever routes were taken on the way. -/
theorem products_exact (t : Tuning) (a b : Words) :
    ((multiply t a b).words.length = a.length + b.length ∧
      toNat (multiply t a b).words = toNat a * toNat b ∧
      (multiply t a b).words = longProduct a b) ∧
    (square t a).words.length = 2 * a.length ∧ toNat (square t a).words = toNat a ^ 2 := by
  obtain ⟨hlen, hvalue⟩ := multiply_isProduct t a b
  obtain ⟨hsquareLen, hsquareValue⟩ := square_isProduct t a
  refine ⟨⟨hlen, hvalue, eq_of_toNat_eq ?_ ?_⟩, ?_, ?_⟩
  · rw [hlen, length_longProduct]
  · rw [hvalue, toNat_longProduct]
  · rw [hsquareLen, Nat.two_mul]
  · rw [hsquareValue, Nat.pow_two]

end Product

end FermatMul
