import FermatMul.Proofs.Product.Coefficients

namespace FermatMul

open Finset
open FermatMul.Fourier FermatMul.Plan FermatMul.Residue FermatMul.Words

namespace Product

variable {p : Plan} {packed z c : Words} {i : Nat}

/-- The three additions of a coefficient drop nothing. -/
structure EntersWhole (p : Plan) (packed z : Words) (i : Nat) (c : Words) : Prop where
  residue_adds : AddsWhole z c (i * p.blockWords)
  correction_adds : AddsWhole (addAt z c (i * p.blockWords)) (correction p packed i c)
    (i * p.blockWords)
  turned_adds : AddsWhole
    (addAt (addAt z c (i * p.blockWords)) (correction p packed i c) (i * p.blockWords))
    (correction p packed i c) (i * p.blockWords + p.ringWords)

/-- The sum only grows, so it is enough that the last addition fits. -/
theorem entersWhole_of_lt
    (h : toNat z + 2 ^ (32 * (i * p.blockWords)) *
      (toNat c + toNat (correction p packed i c) * (2 ^ (32 * p.ringWords) + 1)) <
        2 ^ (32 * z.length)) : EntersWhole p packed z i c := by
  have hsplit : toNat z + 2 ^ (32 * (i * p.blockWords)) *
      (toNat c + toNat (correction p packed i c) * (2 ^ (32 * p.ringWords) + 1)) =
        toNat z + 2 ^ (32 * (i * p.blockWords)) * toNat c +
          2 ^ (32 * (i * p.blockWords)) * toNat (correction p packed i c) +
          2 ^ (32 * (i * p.blockWords + p.ringWords)) * toNat (correction p packed i c) := by
    rw [Nat.mul_add 32, Nat.pow_add]
    ring
  rw [hsplit] at h
  have hsecond := Nat.lt_of_le_of_lt (Nat.le_add_right _ _) h
  have hfirst := Nat.lt_of_le_of_lt (Nat.le_add_right _ _) hsecond
  have hz := toNat_addAt_of_lt hfirst
  rw [← hz, ← length_addAt z c (i * p.blockWords)] at hsecond h
  have heta := toNat_addAt_of_lt hsecond
  rw [← heta, ← length_addAt _ (correction p packed i c) (i * p.blockWords)] at h
  exact ⟨addsWhole_of_lt hfirst, addsWhole_of_lt hsecond, addsWhole_of_lt h⟩

end Product

namespace Factors

variable {t : Tuning} {f : Factors} {i : Nat} {c : Words}

/-- The sum behind the first `count` coefficients of a product. -/
def accumulated (t : Tuning) (f : Factors) (count : Nat) : Words :=
  Product.accumulated f.plan f.totalLength (f.packed.product t).words (f.reduced t) count

theorem Long.convolution_eq (h : f.Long t) (i : Nat) :
    f.plan.convolution (trim f.left) (trim f.right) i =
      f.plan.coefficient (toNat (trim f.left)) (toNat (trim f.right)) i := by
  rcases Nat.lt_or_ge i f.plan.length with hi | hi
  · exact convolution_eq_coefficient h.six_le _ _ hi
  · rw [convolution_eq_zero h.six_le (h.lastPair_lt.le.trans hi),
      h.fits.1.coefficient_eq_zero h.fits.2 hi]

theorem product_lt (f : Factors) :
    toNat (trim f.left) * toNat (trim f.right) < 2 ^ (32 * f.totalLength) :=
  toNat_trim_mul_lt f.left f.right

theorem Long.accumulated_spec (h : f.Long t) (count : Nat) :
    (f.accumulated t count).length = f.totalLength ∧
      toNat (f.accumulated t count) = ∑ i ∈ range count,
        f.plan.convolution (trim f.left) (trim f.right) i * (2 ^ f.plan.blockBits) ^ i := by
  obtain ⟨hleft, hright⟩ := h.fits
  simp only [h.convolution_eq]
  refine Product.accumulated_spec hleft hright (toNat_packed_product t f) h.shaped_reduced ?_
    f.product_lt count
  intro i c hc
  rw [(h.recovered hc).toNat_eq, h.convolution_eq, thirtyTwo_mul_ringWords hleft.five_le]

/-- Each coefficient enters the sum of those before it whole. -/
theorem Long.entersWhole (h : f.Long t) (hc : (f.reduced t)[i]? = some c) :
    Product.EntersWhole f.plan (f.packed.product t).words (f.accumulated t i) i c := by
  obtain ⟨hleft, hright⟩ := h.fits
  obtain ⟨hlen, hvalue⟩ := h.accumulated_spec i
  have hsum := (h.recovered hc).sum_eq
  rw [← thirtyTwo_mul_ringWords hleft.five_le] at hsum
  apply Product.entersWhole_of_lt
  rw [hsum, hlen, hvalue, two_pow_offset h.six_le, Nat.mul_comm, ← sum_range_succ]
  simp only [h.convolution_eq]
  exact (hleft.sum_coefficient_le hright (i + 1)).trans_lt f.product_lt

/-- Adding up the coefficients of a product, from zero on and up to the first one that starts at
the end of the sum, drops neither a word that is not zero nor a carry: behind any number of them
the sum is exact. The coefficients that are left out are zero. -/
theorem accumulation_exact (t : Tuning) (f : Factors) (h : f.Long t) :
    let p := f.plan
    let x := trim f.left
    let y := trim f.right
    let gamma := (f.packed.product t).words
    ((f.product t).words = f.accumulated t (p.blockCount f.totalLength) ∧
      ∀ i, i < p.blockCount f.totalLength ↔ i * p.blockWords < f.totalLength) ∧
    f.accumulated t 0 = zeros f.totalLength ∧
    (∀ i c, (f.reduced t)[i]? = some c →
      f.accumulated t (i + 1) = Product.addCoefficient p gamma (f.accumulated t i) i c ∧
      Product.EntersWhole p gamma (f.accumulated t i) i c) ∧
    (∀ r, toNat (f.accumulated t r) =
      ∑ i ∈ range r, p.convolution x y i * 2 ^ (32 * (i * p.blockWords))) ∧
    ∀ i, f.totalLength ≤ i * p.blockWords →
      p.convolution x y i = 0 ∧ ∀ c, (f.reduced t)[i]? = some c → ∀ w ∈ c, w = 0 := by
  intro p x y gamma
  obtain ⟨hleft, hright⟩ := h.fits
  have hn := h.six_le
  refine ⟨⟨h.words_eq, ?_⟩, rfl, ?_, ?_, ?_⟩
  · intro i
    rw [← Nat.not_le, blockCount_le_iff hn, Nat.not_le]
  · exact fun i c hc => ⟨Product.accumulated_succ hc, h.entersWhole hc⟩
  · intro r
    rw [(h.accumulated_spec r).2]
    apply sum_congr rfl
    intro i _
    rw [two_pow_offset hn]
  · intro i hi
    have hzero : p.convolution x y i = 0 := by
      rw [h.convolution_eq, hleft.coefficient_eq_zero_of_le hright f.product_lt hi]
    refine ⟨hzero, fun c hc => eq_zero_of_toNat_eq_zero ?_⟩
    rw [(h.recovered hc).toNat_eq, hzero, Nat.zero_mod]

theorem accumulation_exact_sixteen :
    let t : Tuning := { threshold := 0 }
    let f := pair (List.replicate 16 0xffffffff) [3]
    f.Long t ∧ f.plan = { m := 10, n := 6 } ∧ f.totalLength = 17 ∧
      (f.product t).words = f.accumulated t 17 ∧
      toNat (f.accumulated t 2) = 3 * (2 ^ 32 - 1) * (1 + 2 ^ 32) ∧
      (∃ c, (f.reduced t)[15]? = some c ∧
        Product.EntersWhole f.plan (f.packed.product t).words (f.accumulated t 15) 15 c) ∧
      ∃ c, (f.reduced t)[17]? = some c ∧ ∀ w ∈ c, w = 0 := by
  intro t f
  have hlong : f.Long t := by decide +kernel
  have hplan : f.plan = { m := 10, n := 6 } := by decide +kernel
  have hcount : f.plan.blockCount f.totalLength = 17 := by decide +kernel
  have hlen : (f.reduced t).length = 32 := by
    rw [hlong.shaped_reduced.length_eq, hplan]
    decide
  obtain ⟨⟨hwords, _⟩, _, hsteps, hvalue, hskipped⟩ := accumulation_exact t f hlong
  rw [hcount] at hwords
  have hget : ∀ i < 32, ∃ c, (f.reduced t)[i]? = some c := fun i hi =>
    ⟨_, List.getElem?_eq_getElem (hlen ▸ hi)⟩
  obtain ⟨last, hlast⟩ := hget 15 (by decide)
  obtain ⟨skipped, hskippedGet⟩ := hget 17 (by decide)
  refine ⟨hlong, hplan, rfl, hwords, (hvalue 2).trans ?_, ?_, ?_⟩
  · decide +kernel
  · exact ⟨last, hlast, (hsteps 15 last hlast).2⟩
  · exact ⟨skipped, hskippedGet, (hskipped 17 (by decide +kernel)).2 skipped hskippedGet⟩

end Factors

end FermatMul
