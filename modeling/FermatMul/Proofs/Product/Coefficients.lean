import Mathlib.Algebra.BigOperators.NatAntidiagonal
import FermatMul.Proofs.Product.Exactness

namespace FermatMul

open Finset
open FermatMul.Fourier FermatMul.Plan FermatMul.Radix FermatMul.Residue FermatMul.Words

theorem Fourier.diagonal_eq_sum_antidiagonal {R : Type*} [CommSemiring R] {len i : Nat}
    (x y : Nat → R) (hi : i < len) :
    diagonal len x y i = ∑ jk ∈ antidiagonal i, x jk.1 * y jk.2 := by
  rw [diagonal]
  congr 1
  ext jk
  rw [mem_filter, mem_product, mem_range, mem_range, HasAntidiagonal.mem_antidiagonal]
  omega

theorem Fourier.sum_antidiagonal_eq_zero {R : Type*} [CommSemiring R] {a b i : Nat}
    {x y : Nat → R} (hx : ∀ j, a ≤ j → x j = 0) (hy : ∀ k, b ≤ k → y k = 0)
    (hi : a + b - 1 ≤ i) : ∑ jk ∈ antidiagonal i, x jk.1 * y jk.2 = 0 := by
  apply sum_eq_zero
  intro jk hjk
  rw [HasAntidiagonal.mem_antidiagonal] at hjk
  rcases Nat.lt_or_ge jk.1 a with hlow | hhigh
  · rw [hy jk.2 (by omega), mul_zero]
  · rw [hx jk.1 hhigh, zero_mul]

namespace Plan

variable {p : Plan} {x y : Words} {i j : Nat}

/-- The number in a block of an operand. -/
def block (p : Plan) (x : Words) (j : Nat) : Nat :=
  toNat ((p.fromBlock x j).take p.blockWords)

/-- The sum of the products of the blocks whose indices add up to `i`. -/
def convolution (p : Plan) (x y : Words) (i : Nat) : Nat :=
  ∑ jk ∈ antidiagonal i, p.block x jk.1 * p.block y jk.2

theorem block_eq_digit (hn : 6 ≤ p.n) (x : Words) (j : Nat) :
    p.block x j = digit p.blockBits (toNat x) j := by
  rw [block, toNat_take, toNat_fromBlock hn, thirtyTwo_mul_blockWords hn, digit]

theorem block_eq_zero (hn : 6 ≤ p.n) (hj : p.blockCount x.length ≤ j) : p.block x j = 0 := by
  rw [block, fromBlock, List.drop_of_length_le ((blockCount_le_iff hn).mp hj), List.take_nil,
    toNat_nil]

theorem convolution_eq_coefficient (hn : 6 ≤ p.n) (x y : Words) (hi : i < p.length) :
    p.convolution x y i = p.coefficient (toNat x) (toNat y) i := by
  rw [coefficient, diagonal_eq_sum_antidiagonal _ _ hi, convolution]
  simp only [block_eq_digit hn]

/-- Beyond the last pair of blocks nothing meets. -/
theorem convolution_eq_zero (hn : 6 ≤ p.n)
    (hi : p.blockCount x.length + p.blockCount y.length - 1 ≤ i) : p.convolution x y i = 0 :=
  sum_antidiagonal_eq_zero (fun _ => block_eq_zero hn) (fun _ => block_eq_zero hn) hi

end Plan

/-- A coefficient recovered from its residue `c` modulo `2 ^ (2 ^ n) + 1` and from a field with its
residue modulo `2 ^ (n + 2)`. -/
structure Recovered (p : Plan) (value : Nat) (field correction c : Words) : Prop where
  canonical : Canonical p.ringWords c
  toNat_eq : toNat c = value % (2 ^ 2 ^ p.n + 1)
  correction_eq : (toNat correction : Int) = ((toNat field : Int) - toNat c) % 2 ^ (p.n + 2)
  sum_eq : toNat c + toNat correction * (2 ^ 2 ^ p.n + 1) = value

namespace Factors

variable {t : Tuning} {f : Factors}

/-- The coefficients of a product modulo `2 ^ (2 ^ n) + 1`. -/
def reduced (t : Tuning) (f : Factors) : List Words :=
  Product.coefficients f.plan f.spectra (f.pointwise.map (product t))

/-- The field of the packed product at an index. -/
def packedField (t : Tuning) (f : Factors) (i : Nat) : Words :=
  extract (f.packed.product t).words (i * f.plan.slotBits) f.plan.dyadicBits

theorem toNat_packed_product (t : Tuning) (f : Factors) :
    toNat (f.packed.product t).words =
      toNat (f.plan.pack (trim f.left)) * toNat (f.plan.pack (trim f.right)) := by
  rw [(f.packed.isProduct t).toNat_eq, packed_left, packed_right]

theorem Long.words_eq (h : f.Long t) :
    (f.product t).words =
      Product.recombine f.plan f.totalLength (f.packed.product t).words (f.reduced t) := by
  rw [product_of_long h]
  rfl

theorem reduced_eq (t : Tuning) (f : Factors) :
    f.reduced t =
      Product.coefficients f.plan
        ((Product.spectrum f.plan (trim f.left)).zip (Product.spectrum f.plan (trim f.right)))
        (((Product.spectrum f.plan (trim f.left)).zip
          (Product.spectrum f.plan (trim f.right))).map fun xy =>
            (pair (xy.1.take f.plan.ringWords) (xy.2.take f.plan.ringWords)).product t) := by
  rw [reduced, pointwise, List.map_map, spectra_eq_zip]
  rfl

theorem isProduct_halves (t : Tuning) (p : Plan) (xy : Words × Words) :
    Product.IsProduct (xy.1.take p.ringWords) (xy.2.take p.ringWords)
      ((pair (xy.1.take p.ringWords) (xy.2.take p.ringWords)).product t) :=
  isProduct t (pair _ _)

theorem Long.shaped_reduced (h : f.Long t) :
    Shaped f.plan.ringWords f.plan.length (f.reduced t) := by
  rw [reduced_eq]
  exact Product.shaped_coefficients (isProduct_halves t f.plan) h.six_le _ _

theorem Long.recovered (h : f.Long t) {i : Nat} {c : Words} (hc : (f.reduced t)[i]? = some c) :
    Recovered f.plan (f.plan.convolution (trim f.left) (trim f.right) i) (f.packedField t i)
      (Product.correction f.plan (f.packed.product t).words i c) c := by
  obtain ⟨hleft, hright⟩ := h.fits
  have hn := h.six_le
  have hring : 32 * f.plan.ringWords = 2 ^ f.plan.n := thirtyTwo_mul_ringWords hleft.five_le
  have hi : i < f.plan.length :=
    h.shaped_reduced.length_eq ▸ (List.getElem?_eq_some_iff.mp hc).1
  have hlen : c.length = f.plan.residueWords :=
    h.shaped_reduced.width_eq c (List.mem_of_getElem? hc)
  rw [reduced_eq] at hc
  have hvalue := Product.toNat_coefficients (isProduct_halves t f.plan) hleft hright hc
  have hsum := Product.toNat_add_correction hleft hright (toNat_packed_product t f) hi hlen hvalue
  rw [hring] at hvalue hsum
  rw [Plan.convolution_eq_coefficient hn _ _ hi]
  refine ⟨?_, hvalue, Product.toNat_correction hn _ i hlen, hsum⟩
  exact Product.canonical_coefficients (isProduct_halves t f.plan) hn _ _ c
    (List.mem_of_getElem? hc)

theorem Long.lastPair_lt (h : f.Long t) :
    f.plan.blockCount (trim f.left).length + f.plan.blockCount (trim f.right).length - 1 <
      f.plan.length := by
  obtain ⟨hleft, hright⟩ := h.fits
  have hcountLeft := hleft.blockCount_le_halfLength
  have hcountRight := hright.blockCount_le_halfLength
  have hdouble := hleft.two_mul_halfLength
  have hpos := f.plan.length_pos
  omega

/-- A product through the transform is put together from as many coefficients as the transform is
long. Each is the sum of the products of the blocks of `2 ^ (n - 1)` bits that meet there: nothing
meets beyond the last pair of blocks, which lies inside the transform, so nothing wraps around; and
the residue by the transform and the correction by the packed product give the sum exactly. -/
theorem coefficients_recovered (t : Tuning) (f : Factors) (h : f.Long t) :
    let p := f.plan
    let x := trim f.left
    let y := trim f.right
    let last := p.blockCount x.length + p.blockCount y.length - 1
    (f.product t).words =
      Product.recombine p f.totalLength (f.packed.product t).words (f.reduced t) ∧
    (∀ z j, p.block z j = toNat z / (2 ^ 2 ^ (p.n - 1)) ^ j % 2 ^ 2 ^ (p.n - 1)) ∧
    (last < p.length ∧ ∀ i, last ≤ i → p.convolution x y i = 0) ∧
    (f.reduced t).length = p.length ∧
    ∀ i c, (f.reduced t)[i]? = some c →
      Recovered p (p.convolution x y i) (f.packedField t i)
        (Product.correction p (f.packed.product t).words i c) c := by
  refine ⟨h.words_eq, ?_, ⟨h.lastPair_lt, ?_⟩, h.shaped_reduced.length_eq, ?_⟩
  · exact fun z j => block_eq_digit h.six_le z j
  · exact fun i hi => convolution_eq_zero h.six_le hi
  · exact fun i c hc => h.recovered hc

theorem coefficients_recovered_sixteen :
    let t : Tuning := { threshold := 0 }
    let f := twice (List.replicate 16 0xffffffff)
    f.Long t ∧ f.plan = { m := 10, n := 6 } ∧
      ∃ c, (f.reduced t)[15]? = some c ∧
        Recovered f.plan (16 * (2 ^ 32 - 1) ^ 2) (f.packedField t 15)
          (Product.correction f.plan (f.packed.product t).words 15 c) c := by
  intro t f
  have hlong : f.Long t := by decide +kernel
  have hplan : f.plan = { m := 10, n := 6 } := by decide +kernel
  obtain ⟨_, _, _, hcount, hrecovered⟩ := coefficients_recovered t f hlong
  have hmiddle : 15 < (f.reduced t).length := by
    rw [hcount, hplan]
    decide
  have hvalue : f.plan.convolution (trim f.left) (trim f.right) 15 = 16 * (2 ^ 32 - 1) ^ 2 := by
    decide +kernel
  have hget := List.getElem?_eq_getElem hmiddle
  have hcoefficient := hrecovered 15 _ hget
  rw [hvalue] at hcoefficient
  exact ⟨hlong, hplan, _, hget, hcoefficient⟩

end Factors

end FermatMul
