import FermatMul.Plan.Bounds
import FermatMul.Proofs.Plan.Ring
import FermatMul.Proofs.Radix

/-!
Why the sizes of a plan suffice: the blocks of an operand fill at most half of the transform, no
field of the packed product overflows, and the two moduli together pass every coefficient.
-/

namespace FermatMul.Plan

open FermatMul.Fourier FermatMul.Radix FermatMul.Words

/-- A plan that can multiply operands of up to `len` words. -/
structure Fits (p : Plan) (len : Nat) : Prop where
  six_le : 6 ≤ p.n
  paired : p.n = p.m / 2 + 1
  words_le : 64 * len ≤ 2 ^ p.m

theorem fits_ofSize {len : Nat} (hlen : 16 ≤ len) : Fits (ofSize (32 * len)) len where
  six_le := by
    obtain ⟨k, hk, _⟩ := exists_ofSize hlen
    omega
  paired := rfl
  words_le := by
    have h : 2 * max (32 * len) 1 - 1 < 2 ^ binaryLength (2 * max (32 * len) 1 - 1) :=
      lt_two_pow_binaryLength _
    change 64 * len ≤ 2 ^ binaryLength (2 * max (32 * len) 1 - 1)
    omega

theorem Fits.mono {p : Plan} {short len : Nat} (h : Fits p len) (hle : short ≤ len) :
    Fits p short :=
  ⟨h.six_le, h.paired, (Nat.mul_le_mul_left 64 hle).trans h.words_le⟩

variable {p : Plan} {len : Nat} {x y : Words}

theorem Fits.five_le (h : Fits p len) : 5 ≤ p.n := Nat.le_of_succ_le h.six_le

theorem two_mul_blockBits (hn : 1 ≤ p.n) : 2 * p.blockBits = 2 ^ p.n := by
  rw [blockBits, ← Nat.pow_succ']
  congr 1
  omega

theorem thirtyTwo_mul_blockWords (hn : 6 ≤ p.n) : 32 * p.blockWords = p.blockBits :=
  Nat.mul_div_cancel' (Nat.pow_dvd_pow 2 (by omega : 5 ≤ p.n - 1))

theorem ringWords_eq_two_mul (hn : 6 ≤ p.n) : p.ringWords = 2 * p.blockWords := by
  have hring := thirtyTwo_mul_ringWords (Nat.le_of_succ_le hn)
  have hblock := thirtyTwo_mul_blockWords hn
  have hdouble := two_mul_blockBits (Nat.one_le_of_lt hn)
  omega

theorem blockWords_pos (hn : 6 ≤ p.n) : 0 < p.blockWords := by
  have hring := ringWords_pos (Nat.le_of_succ_le hn)
  have hdouble := ringWords_eq_two_mul hn
  omega

theorem dyadicBits_le_blockBits (hn : 6 ≤ p.n) : p.dyadicBits ≤ p.blockBits := by
  obtain ⟨k, hk⟩ : ∃ k, p.n = k + 6 := ⟨p.n - 6, by omega⟩
  have hgrow : k + 8 ≤ 2 ^ (k + 5) := by
    rw [Nat.pow_add]
    have := Nat.lt_two_pow_self (n := k)
    omega
  rw [dyadicBits, blockBits, hk]
  exact hgrow

theorem wordsFor_dyadicBits_le (hn : 6 ≤ p.n) : wordsFor p.dyadicBits ≤ p.residueWords := by
  have hfield := dyadicBits_le_blockBits hn
  have hblock := thirtyTwo_mul_blockWords hn
  have hring := ringWords_eq_two_mul hn
  rw [wordsFor_le_iff, residueWords]
  omega

theorem length_mul_blockBits (hpaired : p.n = p.m / 2 + 1) :
    p.length * p.blockBits = 2 ^ p.m := by
  rw [length, blockBits, ← Nat.pow_add, logLength]
  congr 1
  split <;> omega

def halfLength (p : Plan) : Nat := 2 ^ (p.logLength - 1)

theorem two_mul_halfLength (hlength : 1 ≤ p.logLength) : 2 * p.halfLength = p.length := by
  rw [halfLength, length, ← Nat.pow_succ']
  congr 1
  omega

/-- The blocks of half of the transform hold every operand whose double is below the product. -/
theorem bits_le (hpaired : p.n = p.m / 2 + 1) (hlength : 1 ≤ p.logLength) {bits : Nat}
    (hbits : 2 * bits ≤ 2 ^ p.m) : bits ≤ p.blockBits * p.halfLength := by
  have hwhole := length_mul_blockBits hpaired
  rw [← two_mul_halfLength hlength, Nat.mul_assoc, Nat.mul_comm p.halfLength] at hwhole
  omega

theorem Fits.one_le_logLength (h : Fits p len) : 1 ≤ p.logLength := by
  have hlarge := h.six_le
  rw [logLength]
  split <;> omega

theorem Fits.two_mul_halfLength (h : Fits p len) : 2 * p.halfLength = p.length :=
  Plan.two_mul_halfLength h.one_le_logLength

theorem Fits.bits_le (h : Fits p len) : 32 * len ≤ p.blockBits * p.halfLength := by
  have hwords := h.words_le
  exact Plan.bits_le h.paired h.one_le_logLength (by omega)

theorem Fits.toNat_lt (h : Fits p x.length) :
    toNat x < (2 ^ p.blockBits) ^ p.halfLength := by
  refine Nat.lt_of_lt_of_le (Words.toNat_lt x) ?_
  rw [← Nat.pow_mul]
  exact Nat.pow_le_pow_right (by omega) h.bits_le

theorem Fits.digit_eq_zero (h : Fits p x.length) {i : Nat} (hi : p.halfLength ≤ i) :
    digit p.blockBits (toNat x) i = 0 := by
  apply Radix.digit_eq_zero
  exact Nat.lt_of_lt_of_le h.toNat_lt (Nat.pow_le_pow_right (Nat.two_pow_pos _) hi)

theorem blockCount_le_iff (hn : 6 ≤ p.n) {len i : Nat} :
    p.blockCount len ≤ i ↔ len ≤ i * p.blockWords := by
  have hpos := blockWords_pos hn
  rw [blockCount, Nat.div_le_iff_le_mul_add_pred hpos, Nat.mul_comm]
  omega

/-- The weight of the block at an index, which starts at a whole word. -/
theorem two_pow_offset (hn : 6 ≤ p.n) (i : Nat) :
    2 ^ (32 * (i * p.blockWords)) = (2 ^ p.blockBits) ^ i := by
  rw [← Nat.pow_mul, ← thirtyTwo_mul_blockWords hn, Nat.mul_assoc, Nat.mul_comm i]

theorem toNat_lt_of_blockCount_le (hn : 6 ≤ p.n) {i : Nat} (hi : p.blockCount x.length ≤ i) :
    toNat x < (2 ^ p.blockBits) ^ i := by
  refine Nat.lt_of_lt_of_le (Words.toNat_lt x) ?_
  rw [← two_pow_offset hn]
  exact Nat.pow_le_pow_right (by omega) (Nat.mul_le_mul_left 32 ((blockCount_le_iff hn).mp hi))

theorem Fits.blockCount_le_halfLength (h : Fits p len) : p.blockCount len ≤ p.halfLength := by
  have hbits := h.bits_le
  rw [← thirtyTwo_mul_blockWords h.six_le, Nat.mul_assoc, Nat.mul_comm p.blockWords] at hbits
  exact (blockCount_le_iff h.six_le).mpr (by omega)

theorem Fits.blockCount_le (h : Fits p len) : p.blockCount len ≤ p.length := by
  have hcount := h.blockCount_le_halfLength
  have hdouble := h.two_mul_halfLength
  omega

theorem length_le (p : Plan) : p.length ≤ 2 ^ p.n :=
  Nat.pow_le_pow_right (by omega) p.logLength_le

theorem diagonal_le_two_pow {width : Nat} {d e : Nat → Nat} (hd : ∀ j, d j < 2 ^ width)
    (he : ∀ k, e k < 2 ^ width) (i : Nat) : diagonal p.length d e i ≤ 2 ^ (p.n + 2 * width) := by
  have hbound : ∀ j k, d j * e k ≤ 2 ^ width * 2 ^ width := fun j k =>
    Nat.mul_le_mul (Nat.le_of_lt (hd j)) (Nat.le_of_lt (he k))
  calc
    diagonal p.length d e i ≤ p.length * (2 ^ width * 2 ^ width) := diagonal_le hbound
    _ ≤ 2 ^ p.n * (2 ^ width * 2 ^ width) := Nat.mul_le_mul_right _ p.length_le
    _ = 2 ^ (p.n + 2 * width) := by rw [← Nat.pow_add, ← Nat.pow_add, Nat.two_mul]

/-- Sums of products of low bits fit into the fields of the packed product. -/
theorem two_pow_lt_slot (p : Plan) : 2 ^ (p.n + 2 * p.dyadicBits) < 2 ^ p.slotBits := by
  apply Nat.pow_lt_pow_right (by omega)
  rw [dyadicBits, slotBits]
  omega

/-- Sums of products of blocks are below the product of the two moduli. -/
theorem two_pow_lt_moduli (hn : 1 ≤ p.n) :
    2 ^ (p.n + 2 * p.blockBits) < 2 ^ p.dyadicBits * (2 ^ 2 ^ p.n + 1) := by
  rw [two_mul_blockBits hn, Nat.pow_add]
  apply Nat.mul_lt_mul_of_le_of_lt
  · exact Nat.pow_le_pow_right (by omega) (by rw [dyadicBits]; omega)
  · exact Nat.lt_succ_self _
  · exact Nat.two_pow_pos _

/-- The coefficient of a product at an index: the sum of the products of blocks that meet there. -/
def coefficient (p : Plan) (a b : Nat) (i : Nat) : Nat :=
  diagonal p.length (digit p.blockBits a) (digit p.blockBits b) i

/-- The two moduli together pass every coefficient. -/
theorem coefficient_lt (hn : 6 ≤ p.n) (a b i : Nat) :
    p.coefficient a b i < 2 ^ p.dyadicBits * (2 ^ (32 * p.ringWords) + 1) := by
  rw [thirtyTwo_mul_ringWords (Nat.le_of_succ_le hn)]
  exact (diagonal_le_two_pow (digit_lt _ a) (digit_lt _ b) i).trans_lt
    (two_pow_lt_moduli (Nat.one_le_of_lt hn))

theorem Fits.coefficient_eq_zero (hx : Fits p x.length) (hy : Fits p y.length) {i : Nat}
    (hi : p.length ≤ i) : p.coefficient (toNat x) (toNat y) i = 0 := by
  rw [coefficient, ← hx.two_mul_halfLength]
  rw [← hx.two_mul_halfLength] at hi
  exact diagonal_eq_zero (fun _ => hx.digit_eq_zero) (fun _ => hy.digit_eq_zero) hi

/-- A product is the sum of its coefficients, each one at its block. -/
theorem Fits.sum_coefficient (hx : Fits p x.length) (hy : Fits p y.length) :
    ∑ i ∈ Finset.range p.length, p.coefficient (toNat x) (toNat y) i * (2 ^ p.blockBits) ^ i =
      toNat x * toNat y := by
  have hlength := hx.two_mul_halfLength
  have hvalue : ∀ {z : Words}, Fits p z.length →
      ∑ i ∈ Finset.range p.length, digit p.blockBits (toNat z) i * (2 ^ p.blockBits) ^ i =
        toNat z := fun hz =>
    sum_digit_of_lt (toNat_lt_of_blockCount_le hz.six_le hz.blockCount_le)
  have hproduct := sum_mul_sum_eq_sum_diagonal_of_half (fun _ => hx.digit_eq_zero)
    (fun _ => hy.digit_eq_zero) (2 ^ p.blockBits)
  rw [hlength, hvalue hx, hvalue hy] at hproduct
  exact hproduct.symm

/-- The coefficients up to any one of them are part of the product. -/
theorem Fits.sum_coefficient_le (hx : Fits p x.length) (hy : Fits p y.length) (count : Nat) :
    ∑ i ∈ Finset.range count, p.coefficient (toNat x) (toNat y) i * (2 ^ p.blockBits) ^ i ≤
      toNat x * toNat y := by
  rw [← hx.sum_coefficient hy]
  apply sum_range_le_sum_range
  intro i hi
  rw [hx.coefficient_eq_zero hy hi, Nat.zero_mul]

section Output

variable {outLen : Nat} (hx : Fits p x.length) (hy : Fits p y.length)
  (hout : toNat x * toNat y < 2 ^ (32 * outLen))

include hx hy hout

/-- A coefficient that starts at the end of the product or beyond is zero. -/
theorem Fits.coefficient_eq_zero_of_le {i : Nat} (hi : outLen ≤ i * p.blockWords) :
    p.coefficient (toNat x) (toNat y) i = 0 := by
  have hterm : p.coefficient (toNat x) (toNat y) i * (2 ^ p.blockBits) ^ i ≤
      toNat x * toNat y := by
    refine le_trans ?_ (hx.sum_coefficient_le hy (i + 1))
    rw [Finset.sum_range_succ]
    exact Nat.le_add_left _ _
  have hend : 2 ^ (32 * outLen) ≤ 1 * (2 ^ p.blockBits) ^ i := by
    rw [Nat.one_mul, ← two_pow_offset hx.six_le]
    exact Nat.pow_le_pow_right (by omega) (Nat.mul_le_mul_left 32 hi)
  exact Nat.lt_one_iff.mp (Nat.lt_of_mul_lt_mul_right (hterm.trans_lt (hout.trans_le hend)))

theorem Fits.sum_coefficient_of_lt :
    ∑ i ∈ Finset.range (p.blockCount outLen),
      p.coefficient (toNat x) (toNat y) i * (2 ^ p.blockBits) ^ i = toNat x * toNat y := by
  apply le_antisymm (hx.sum_coefficient_le hy _)
  rw [← hx.sum_coefficient hy]
  apply sum_range_le_sum_range
  intro i hi
  have hskipped := (blockCount_le_iff hx.six_le).mp hi
  rw [hx.coefficient_eq_zero_of_le hy hout hskipped, Nat.zero_mul]

end Output

end FermatMul.Plan
