import FermatMul.Proofs.Product.Coefficients

namespace FermatMul

open Finset
open FermatMul.Fourier FermatMul.Plan FermatMul.Radix FermatMul.Words

namespace Plan

variable {p : Plan} {x y : Words} {i : Nat}

/-- The convolution of the low bits of the blocks. -/
def lowConvolution (p : Plan) (x y : Words) (i : Nat) : Nat :=
  ∑ jk ∈ antidiagonal i, p.block x jk.1 % 2 ^ p.dyadicBits * (p.block y jk.2 % 2 ^ p.dyadicBits)

theorem block_mod_dyadicBits (hn : 6 ≤ p.n) (x : Words) (j : Nat) :
    p.block x j % 2 ^ p.dyadicBits = p.lowBits (toNat x) j := by
  rw [block_eq_digit hn, lowBits]

theorem lowConvolution_eq_diagonal (hn : 6 ≤ p.n) (x y : Words) (hi : i < p.length) :
    p.lowConvolution x y i =
      diagonal p.length (p.lowBits (toNat x)) (p.lowBits (toNat y)) i := by
  rw [diagonal_eq_sum_antidiagonal _ _ hi, lowConvolution]
  simp only [block_mod_dyadicBits hn]

theorem lowConvolution_eq_zero (hn : 6 ≤ p.n)
    (hi : p.blockCount x.length + p.blockCount y.length - 1 ≤ i) :
    p.lowConvolution x y i = 0 := by
  have hlow : ∀ z : Words, ∀ j, p.blockCount z.length ≤ j →
      p.block z j % 2 ^ p.dyadicBits = 0 := by
    intro z j hj
    rw [block_eq_zero hn hj, Nat.zero_mod]
  exact sum_antidiagonal_eq_zero (hlow x) (hlow y) hi

/-- The blocks of an operand make it up, the last one being as long as the words that are left. -/
theorem sum_block (hn : 6 ≤ p.n) (z : Words) :
    ∑ j ∈ range (p.blockCount z.length), p.block z j * 2 ^ (j * 2 ^ (p.n - 1)) = toNat z := by
  refine Eq.trans ?_ (sum_digit_of_lt (toNat_lt_of_blockCount_le hn (Nat.le_refl _)))
  apply sum_congr rfl
  intro j _
  rw [block_eq_digit hn, Nat.mul_comm j, Nat.pow_mul]
  rfl

theorem toNat_pack_eq_sum_block (hn : 6 ≤ p.n) (z : Words) :
    toNat (p.pack z) = ∑ j ∈ range (p.blockCount z.length),
      p.block z j % 2 ^ (p.n + 2) * 2 ^ (j * (3 * p.n + 5)) := by
  rw [pack, toNat_foldl_append hn]
  apply sum_congr rfl
  intro j _
  rw [← block_mod_dyadicBits hn, ← Nat.pow_mul, Nat.mul_comm p.slotBits]
  rfl

end Plan

namespace Factors

variable {t : Tuning} {f : Factors}

theorem Long.lowConvolution_lt (h : f.Long t) (i : Nat) :
    f.plan.lowConvolution (trim f.left) (trim f.right) i < 2 ^ f.plan.slotBits := by
  rcases Nat.lt_or_ge i f.plan.length with hi | hi
  · rw [lowConvolution_eq_diagonal h.six_le _ _ hi]
    exact f.plan.diagonal_lowBits_lt _ _ i
  · rw [lowConvolution_eq_zero h.six_le (h.lastPair_lt.le.trans hi)]
    exact Nat.two_pow_pos _

/-- A product through the transform gets the low bits of its coefficients from the packed product.
The fields of a packed operand are the low bits of its blocks. No sum of their products overflows a
field, so the packed product is those sums side by side, and reading the low bits of a field gives
the coefficient modulo `2 ^ (n + 2)`, also where the field lies past the end. -/
theorem packed_fields_exact (t : Tuning) (f : Factors) (h : f.Long t) :
    let p := f.plan
    let x := trim f.left
    let y := trim f.right
    let gamma := (f.packed.product t).words
    (f.packed.left = p.pack x ∧ f.packed.right = p.pack y) ∧
    (∀ z, toNat z = ∑ j ∈ range (p.blockCount z.length), p.block z j * 2 ^ (j * 2 ^ (p.n - 1)) ∧
      toNat (p.pack z) = ∑ j ∈ range (p.blockCount z.length),
        p.block z j % 2 ^ (p.n + 2) * 2 ^ (j * (3 * p.n + 5))) ∧
    (∀ i, p.lowConvolution x y i < 2 ^ (3 * p.n + 5)) ∧
    toNat gamma = ∑ i ∈ range p.length, p.lowConvolution x y i * 2 ^ (i * (3 * p.n + 5)) ∧
    ∀ i < p.length,
      toNat gamma / 2 ^ (i * (3 * p.n + 5)) % 2 ^ (3 * p.n + 5) = p.lowConvolution x y i ∧
      toNat (extract gamma (i * (3 * p.n + 5)) (p.n + 2)) =
        p.convolution x y i % 2 ^ (p.n + 2) := by
  intro p x y gamma
  obtain ⟨hleft, hright⟩ := h.fits
  have hn := h.six_le
  have hpacked : toNat gamma = toNat (p.pack x) * toNat (p.pack y) := toNat_packed_product t f
  refine ⟨⟨packed_left f, packed_right f⟩, ?_, h.lowConvolution_lt, ?_, ?_⟩
  · exact fun z => ⟨(sum_block hn z).symm, toNat_pack_eq_sum_block hn z⟩
  · rw [toNat_packed hleft hright hpacked]
    apply sum_congr rfl
    intro i hi
    rw [lowConvolution_eq_diagonal hn x y (mem_range.mp hi), Nat.mul_comm i, Nat.pow_mul]
    rfl
  · intro i hi
    constructor
    · rw [lowConvolution_eq_diagonal hn x y hi, ← digit_packed hleft hright hpacked hi,
        Nat.mul_comm i, Nat.pow_mul]
      rfl
    · rw [convolution_eq_coefficient hn x y hi]
      exact toNat_extract_packed hleft hright hpacked hi

/-- A packed product of 416 bits: its eighteenth field, from bit 414 on, passes the end, and the
last one, from bit 713 on, lies behind it. -/
theorem packed_fields_exact_sixteen :
    let t : Tuning := { threshold := 0 }
    let f := pair (List.replicate 16 0xffffffff) [0xffffffff]
    let gamma := (f.packed.product t).words
    let width := 3 * f.plan.n + 5
    f.Long t ∧ f.plan = { m := 10, n := 6 } ∧ gamma.length = 13 ∧
      toNat gamma / 2 ^ (15 * width) % 2 ^ width = 255 * 255 ∧
      toNat (extract gamma (15 * width) (f.plan.n + 2)) = (2 ^ 32 - 1) ^ 2 % 2 ^ 8 ∧
      toNat (extract gamma (18 * width) (f.plan.n + 2)) = 0 ∧
      toNat (extract gamma (31 * width) (f.plan.n + 2)) = 0 := by
  intro t f gamma width
  have hlong : f.Long t := by decide +kernel
  have hplan : f.plan = { m := 10, n := 6 } := by decide +kernel
  have hlen : gamma.length = 13 := by
    rw [(f.packed.isProduct t).length_eq, packed_left, packed_right, length_pack, length_pack,
      hplan]
    decide +kernel
  have hcount : f.plan.length = 32 := by
    rw [hplan]
    decide
  obtain ⟨_, _, _, _, hfields⟩ := packed_fields_exact t f hlong
  obtain ⟨hsum, hfield⟩ := hfields 15 (by omega)
  refine ⟨hlong, hplan, hlen, hsum.trans ?_, hfield.trans ?_, ?_, ?_⟩
  · decide +kernel
  · decide +kernel
  · exact (hfields 18 (by omega)).2.trans (by decide +kernel)
  · exact (hfields 31 (by omega)).2.trans (by decide +kernel)

end Factors

end FermatMul
