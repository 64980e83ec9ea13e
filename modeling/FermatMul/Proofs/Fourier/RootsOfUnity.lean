import Mathlib.Algebra.BigOperators.Intervals
import Mathlib.Algebra.BigOperators.Ring.Finset
import Mathlib.Algebra.Ring.Parity
import Mathlib.Tactic.Ring

/-!
Sums over the powers of a root of minus one, in a ring that need not be a field: they are
orthogonal, which inverts a weighted transform in both directions, and a product of two values at
such a root is a value of the negacyclic convolution.
-/

namespace FermatMul.Fourier

open Finset

section Convolution

variable {R : Type*} [CommSemiring R]

/-- The terms of a product of two sequences of `len` coefficients whose indices add up to `s`. -/
def diagonal (len : Nat) (x y : Nat → R) (s : Nat) : R :=
  ∑ jk ∈ range len ×ˢ range len with jk.1 + jk.2 = s, x jk.1 * y jk.2

theorem diagonal_congr {len : Nat} {x x' y y' : Nat → R} (hx : ∀ j < len, x j = x' j)
    (hy : ∀ k < len, y k = y' k) (s : Nat) : diagonal len x y s = diagonal len x' y' s := by
  apply sum_congr rfl
  intro jk hjk
  obtain ⟨hj, hk⟩ := mem_product.mp (mem_filter.mp hjk).1
  rw [hx _ (mem_range.mp hj), hy _ (mem_range.mp hk)]

theorem map_diagonal {S : Type*} [CommSemiring S] (f : R →+* S) (len : Nat) (x y : Nat → R)
    (s : Nat) : f (diagonal len x y s) = diagonal len (fun j => f (x j)) (fun k => f (y k)) s := by
  simp only [diagonal, map_sum, map_mul]

theorem sum_mul_sum_eq_sum_diagonal (len : Nat) (x y : Nat → R) (u : R) :
    (∑ j ∈ range len, x j * u ^ j) * ∑ k ∈ range len, y k * u ^ k =
      ∑ s ∈ range (2 * len), diagonal len x y s * u ^ s := by
  have hindex : ∀ jk ∈ range len ×ˢ range len, jk.1 + jk.2 ∈ range (2 * len) := by
    intro jk hjk
    simp only [mem_product, mem_range] at hjk ⊢
    omega
  rw [sum_mul_sum, ← sum_product', ← sum_fiberwise_of_maps_to hindex]
  apply sum_congr rfl
  intro s _
  rw [diagonal, sum_mul]
  apply sum_congr rfl
  intro jk hjk
  rw [← (mem_filter.mp hjk).2, pow_add]
  ring

end Convolution

section Ring

variable {R : Type*} [CommRing R]

/-- The coefficients of a product of two polynomials whose degree stays below `len` because the
power `len` of the variable is minus one. -/
def negacyclic (len : Nat) (x y : Nat → R) (i : Nat) : R :=
  diagonal len x y i - diagonal len x y (i + len)

theorem negacyclic_congr {len : Nat} {x x' y y' : Nat → R} (hx : ∀ j < len, x j = x' j)
    (hy : ∀ k < len, y k = y' k) (i : Nat) : negacyclic len x y i = negacyclic len x' y' i := by
  rw [negacyclic, negacyclic, diagonal_congr hx hy, diagonal_congr hx hy]

theorem map_negacyclic {S : Type*} [CommRing S] (f : R →+* S) (len : Nat) (x y : Nat → R)
    (i : Nat) :
    f (negacyclic len x y i) = negacyclic len (fun j => f (x j)) (fun k => f (y k)) i := by
  rw [negacyclic, negacyclic, map_sub, map_diagonal, map_diagonal]

theorem sum_mul_sum_eq_sum_negacyclic {len : Nat} {u : R} (hu : u ^ len = -1) (x y : Nat → R) :
    (∑ j ∈ range len, x j * u ^ j) * ∑ k ∈ range len, y k * u ^ k =
      ∑ i ∈ range len, negacyclic len x y i * u ^ i := by
  rw [sum_mul_sum_eq_sum_diagonal, Nat.two_mul, sum_range_add, ← sum_add_distrib]
  apply sum_congr rfl
  intro i _
  rw [negacyclic, pow_add, hu, Nat.add_comm len i]
  ring

theorem sum_range_two_mul (n : Nat) (f : Nat → R) :
    ∑ j ∈ range (2 * n), f j =
      ∑ j ∈ range n, f (2 * j) + ∑ j ∈ range n, f (2 * j + 1) := by
  induction n with
  | zero => simp
  | succ n ih =>
      rw [Nat.mul_succ, sum_range_succ, sum_range_succ, ih, sum_range_succ, sum_range_succ]
      ring

/-- A transform from those of the even and the odd coefficients: its lower half. -/
theorem sum_mul_pow_lower (n : Nat) (f : Nat → R) (ω : R) (i : Nat) :
    ∑ j ∈ range (2 * n), f j * ω ^ (i * j) =
      ∑ j ∈ range n, f (2 * j) * (ω ^ 2) ^ (i * j) +
        ω ^ i * ∑ j ∈ range n, f (2 * j + 1) * (ω ^ 2) ^ (i * j) := by
  rw [sum_range_two_mul, mul_sum]
  congr 1
  · apply sum_congr rfl
    intro j _
    rw [← pow_mul]
    congr 2
    ring
  · apply sum_congr rfl
    intro j _
    rw [← pow_mul, mul_left_comm, ← pow_add]
    congr 2
    ring

theorem sum_mul_pow_upper {n : Nat} {ω : R} (hω : ω ^ n = -1) (f : Nat → R) (i : Nat) :
    ∑ j ∈ range (2 * n), f j * ω ^ ((n + i) * j) =
      ∑ j ∈ range n, f (2 * j) * (ω ^ 2) ^ (i * j) -
        ω ^ i * ∑ j ∈ range n, f (2 * j + 1) * (ω ^ 2) ^ (i * j) := by
  have hsq : (ω ^ 2) ^ n = 1 := by
    rw [← pow_mul, Nat.mul_comm, pow_mul, hω]
    ring
  have hturn : ∀ j, (ω ^ 2) ^ ((n + i) * j) = (ω ^ 2) ^ (i * j) := by
    intro j
    rw [Nat.add_mul, pow_add, pow_mul, hsq, one_pow, one_mul]
  rw [sum_mul_pow_lower]
  simp only [hturn]
  rw [pow_add, hω]
  ring

variable {k : Nat} {θ : R}

theorem pow_mul_odd (θ : R) (i j : Nat) :
    θ ^ (j * (2 * i + 1)) = θ ^ j * (θ ^ 2) ^ (i * j) := by
  rw [← pow_mul, ← pow_add]
  congr 1
  ring

theorem sq_pow_eq_one {len : Nat} (hθ : θ ^ len = -1) : (θ ^ 2) ^ len = 1 := by
  rw [← pow_mul, Nat.mul_comm, pow_mul, hθ]
  ring

/-- Negative powers of a root of unity run backwards through its positive ones. -/
theorem inverse_pow_eq {len j : Nat} {θ' : R} (hinverse : θ' * θ = 1)
    (hperiod : (θ ^ 2) ^ len = 1) (hj : j ≤ len) (k : Nat) :
    θ' ^ (2 * j * k) = (θ ^ 2) ^ (k * (len - j)) := by
  have hexponent : 2 * j * k + 2 * (k * (len - j)) = 2 * len * k := by
    rw [Nat.mul_assoc, ← Nat.mul_add, Nat.mul_comm j, ← Nat.mul_add, Nat.add_sub_cancel' hj,
      Nat.mul_comm k, Nat.mul_assoc]
  refine left_inv_eq_right_inv (a := θ ^ (2 * j * k)) ?_ ?_
  · rw [← mul_pow, hinverse, one_pow]
  · rw [← pow_mul, ← pow_add, hexponent, pow_mul, pow_mul, hperiod, one_pow]

/-- The powers of a root of unity that is not one add up to zero. -/
theorem sum_pow_eq_zero (hθ : θ ^ 2 ^ k = -1) {e : Nat} (he : ¬ 2 ^ k ∣ e) :
    ∑ i ∈ range (2 ^ k), (θ ^ 2) ^ (i * e) = 0 := by
  induction k generalizing θ e with
  | zero => exact absurd (one_dvd e) he
  | succ k ih =>
      have hsplit : ∑ i ∈ range (2 ^ (k + 1)), (θ ^ 2) ^ (i * e) =
          (1 + (θ ^ 2) ^ (2 ^ k * e)) * ∑ i ∈ range (2 ^ k), (θ ^ 2) ^ (i * e) := by
        rw [pow_succ, Nat.mul_comm, Nat.two_mul, sum_range_add, add_mul, one_mul, mul_sum]
        congr 1
        apply sum_congr rfl
        intro i _
        rw [Nat.add_mul, pow_add]
      have hhalf : (θ ^ 2) ^ (2 ^ k * e) = (-1) ^ e := by
        rw [pow_mul, ← pow_mul θ 2, ← Nat.pow_succ', hθ]
      rw [hsplit, hhalf]
      rcases Nat.even_or_odd' e with ⟨d, rfl | rfl⟩
      · -- An even exponent is an exponent of the square, whose order is half as large.
        have hsquare : (θ ^ 2) ^ 2 ^ k = -1 := by
          rw [← pow_mul, ← Nat.pow_succ', hθ]
        have hd : ¬ 2 ^ k ∣ d := by
          rintro ⟨c, rfl⟩
          exact he ⟨c, by rw [pow_succ]; ring⟩
        have hzero := ih hsquare hd
        have hsame : ∑ i ∈ range (2 ^ k), (θ ^ 2) ^ (i * (2 * d)) =
            ∑ i ∈ range (2 ^ k), ((θ ^ 2) ^ 2) ^ (i * d) := by
          apply sum_congr rfl
          intro i _
          rw [← pow_mul (θ ^ 2)]
          congr 1
          ring
        rw [hsame, hzero, mul_zero]
      · rw [Odd.neg_one_pow ⟨d, rfl⟩]
        ring

theorem sum_pow_mul_sub (hθ : θ ^ 2 ^ k = -1) {l j : Nat} (hl : l < 2 ^ k) (hj : j < 2 ^ k) :
    ∑ i ∈ range (2 ^ k), (θ ^ 2) ^ (i * (l + (2 ^ k - j))) = if l = j then 2 ^ k else 0 := by
  split
  · next heq =>
      have hone : ∀ i ∈ range (2 ^ k), (θ ^ 2) ^ (i * (l + (2 ^ k - j))) = 1 := by
        intro i _
        rw [heq, Nat.add_sub_cancel' (Nat.le_of_lt hj), Nat.mul_comm, pow_mul, sq_pow_eq_one hθ,
          one_pow]
      rw [sum_congr rfl hone, sum_const, card_range, nsmul_one]
      push_cast
      rfl
  · next hne =>
      apply sum_pow_eq_zero hθ
      intro hdvd
      obtain ⟨c, hc⟩ := hdvd
      have hcOne : c = 1 := by
        have hlt : 2 ^ k * c < 2 ^ k * 2 := by omega
        have hpos : 0 < 2 ^ k * c := by omega
        have := Nat.lt_of_mul_lt_mul_left hlt
        have := Nat.pos_of_mul_pos_left hpos
        omega
      rw [hcOne] at hc
      omega

/-- The transform of a weighted transform read backwards gives back the weighted sequence, times
its length. -/
theorem sum_evaluation_mul_pow (hθ : θ ^ 2 ^ k = -1) (x : Nat → R) {j : Nat} (hj : j < 2 ^ k) :
    ∑ i ∈ range (2 ^ k),
        (∑ l ∈ range (2 ^ k), x l * θ ^ (l * (2 * i + 1))) * (θ ^ 2) ^ (i * (2 ^ k - j)) =
      2 ^ k * (θ ^ j * x j) := by
  have hterm : ∀ i ∈ range (2 ^ k),
      (∑ l ∈ range (2 ^ k), x l * θ ^ (l * (2 * i + 1))) * (θ ^ 2) ^ (i * (2 ^ k - j)) =
        ∑ l ∈ range (2 ^ k), x l * θ ^ l * (θ ^ 2) ^ (i * (l + (2 ^ k - j))) := by
    intro i _
    rw [sum_mul]
    apply sum_congr rfl
    intro l _
    have hpow : θ ^ (l * (2 * i + 1)) = θ ^ l * (θ ^ 2) ^ (i * l) := by
      rw [← pow_mul, ← pow_add]
      congr 1
      ring
    rw [hpow, Nat.mul_add, pow_add]
    ring
  rw [sum_congr rfl hterm, sum_comm]
  have hcolumn : ∀ l ∈ range (2 ^ k),
      ∑ i ∈ range (2 ^ k), x l * θ ^ l * (θ ^ 2) ^ (i * (l + (2 ^ k - j))) =
        if l = j then 2 ^ k * (θ ^ j * x j) else 0 := by
    intro l hl
    rw [← mul_sum, sum_pow_mul_sub hθ (mem_range.mp hl) hj]
    split
    · next heq =>
        rw [heq]
        ring
    · rw [mul_zero]
  rw [sum_congr rfl hcolumn, sum_ite_eq' (range (2 ^ k)) j, if_pos (mem_range.mpr hj)]

theorem pow_mul_sub_comm {ω : R} {len : Nat} (hω : ω ^ len = 1) {l j : Nat} (hl : l ≤ len)
    (hj : j ≤ len) : ω ^ (l * (len - j)) = ω ^ (j * (len - l)) := by
  have hleft : ω ^ (l * (len - j)) * ω ^ (l * j) = 1 := by
    rw [← pow_add, ← Nat.mul_add, Nat.sub_add_cancel hj, Nat.mul_comm, pow_mul, hω, one_pow]
  have hright : ω ^ (l * j) * ω ^ (j * (len - l)) = 1 := by
    rw [Nat.mul_comm l j, ← pow_add, ← Nat.mul_add, Nat.add_sub_cancel' hl, Nat.mul_comm, pow_mul,
      hω, one_pow]
  exact left_inv_eq_right_inv hleft hright

/-- The transform of a transform read backwards gives back the sequence, times its length. -/
theorem sum_reading_mul_pow (hθ : θ ^ 2 ^ k = -1) (x : Nat → R) {i : Nat} (hi : i < 2 ^ k) :
    ∑ j ∈ range (2 ^ k),
        (∑ l ∈ range (2 ^ k), x l * (θ ^ 2) ^ (l * (2 ^ k - j))) * (θ ^ 2) ^ (i * j) =
      2 ^ k * x i := by
  have hterm : ∀ j ∈ range (2 ^ k),
      (∑ l ∈ range (2 ^ k), x l * (θ ^ 2) ^ (l * (2 ^ k - j))) * (θ ^ 2) ^ (i * j) =
        ∑ l ∈ range (2 ^ k), x l * (θ ^ 2) ^ (j * (i + (2 ^ k - l))) := by
    intro j hj
    rw [sum_mul]
    apply sum_congr rfl
    intro l hl
    rw [pow_mul_sub_comm (sq_pow_eq_one hθ) (Nat.le_of_lt (mem_range.mp hl))
      (Nat.le_of_lt (mem_range.mp hj)), mul_assoc, ← pow_add]
    congr 2
    ring
  rw [sum_congr rfl hterm, sum_comm]
  have hcolumn : ∀ l ∈ range (2 ^ k),
      ∑ j ∈ range (2 ^ k), x l * (θ ^ 2) ^ (j * (i + (2 ^ k - l))) =
        if l = i then 2 ^ k * x i else 0 := by
    intro l hl
    rw [← mul_sum, sum_pow_mul_sub hθ hi (mem_range.mp hl)]
    by_cases heq : l = i
    · rw [if_pos heq, if_pos heq.symm, heq, mul_comm]
    · rw [if_neg heq, if_neg (Ne.symm heq), mul_zero]
  rw [sum_congr rfl hcolumn, sum_ite_eq' (range (2 ^ k)) i, if_pos (mem_range.mpr hi)]

end Ring

end FermatMul.Fourier
