import Mathlib.Algebra.BigOperators.Ring.Finset
import Mathlib.Algebra.BigOperators.Intervals
import Mathlib.Algebra.Group.Action.Defs
import Mathlib.Algebra.Order.BigOperators.Group.Finset
import Mathlib.Tactic.Linarith
import FermatMul.Proofs.Fourier.RootsOfUnity

/-!
Numbers as sums of fields: the fields of a number add up to it, and a sum of fields that do not
overflow gives each of them back. A product of two such sums has the diagonals of their fields.
-/

namespace FermatMul.Radix

open Finset
open FermatMul.Fourier

theorem sum_range_le_sum_range {a b : Nat} {f : Nat → Nat} (h : ∀ i, b ≤ i → f i = 0) :
    ∑ i ∈ range a, f i ≤ ∑ i ∈ range b, f i := by
  apply sum_le_sum_of_ne_zero
  intro i _ hne
  rcases Nat.lt_or_ge i b with hi | hi
  · exact mem_range.mpr hi
  · exact absurd (h i hi) hne

/-- The field of `width` bits at an index of a number. -/
def digit (width value i : Nat) : Nat := value / (2 ^ width) ^ i % 2 ^ width

theorem digit_lt (width value i : Nat) : digit width value i < 2 ^ width :=
  Nat.mod_lt _ (Nat.two_pow_pos width)

theorem digit_eq_zero {width value i : Nat} (h : value < (2 ^ width) ^ i) :
    digit width value i = 0 := by
  rw [digit, Nat.div_eq_of_lt h, Nat.zero_mod]

theorem sum_digit (width value count : Nat) :
    ∑ i ∈ range count, digit width value i * (2 ^ width) ^ i = value % (2 ^ width) ^ count := by
  induction count with
  | zero => simp [Nat.mod_one]
  | succ count ih =>
      rw [sum_range_succ, ih, digit, pow_succ, Nat.mod_mul, Nat.mul_comm (_ % _)]

theorem sum_digit_of_lt {width value count : Nat} (h : value < (2 ^ width) ^ count) :
    ∑ i ∈ range count, digit width value i * (2 ^ width) ^ i = value := by
  rw [sum_digit, Nat.mod_eq_of_lt h]

theorem sum_fields_lt {width count : Nat} {d : Nat → Nat} (hd : ∀ i < count, d i < 2 ^ width) :
    ∑ i ∈ range count, d i * (2 ^ width) ^ i < (2 ^ width) ^ count := by
  induction count with
  | zero => simp
  | succ count ih =>
      have hlow := ih fun i hi => hd i (Nat.lt_succ_of_lt hi)
      have htop := hd count (Nat.lt_succ_self count)
      rw [sum_range_succ]
      calc
        ∑ i ∈ range count, d i * (2 ^ width) ^ i + d count * (2 ^ width) ^ count <
            (2 ^ width) ^ count + d count * (2 ^ width) ^ count := Nat.add_lt_add_right hlow _
        _ = (d count + 1) * (2 ^ width) ^ count := by ring
        _ ≤ 2 ^ width * (2 ^ width) ^ count := Nat.mul_le_mul_right _ htop
        _ = (2 ^ width) ^ (count + 1) := by ring

theorem digit_sum_fields {width count i : Nat} {d : Nat → Nat}
    (hd : ∀ j < count, d j < 2 ^ width) (hi : i < count) :
    digit width (∑ j ∈ range count, d j * (2 ^ width) ^ j) i = d i := by
  obtain ⟨rest, rfl⟩ : ∃ rest, count = i + (rest + 1) := ⟨count - i - 1, by omega⟩
  have hlow := sum_fields_lt fun j hj => hd j (Nat.lt_of_lt_of_le hj (Nat.le_add_right i _))
  have hfield := hd i hi
  have hsplit : ∑ j ∈ range (i + (rest + 1)), d j * (2 ^ width) ^ j =
      ∑ j ∈ range i, d j * (2 ^ width) ^ j + (2 ^ width) ^ i *
        (d i + 2 ^ width * ∑ j ∈ range rest, d (i + (j + 1)) * (2 ^ width) ^ j) := by
    rw [sum_range_add, sum_range_succ', Nat.add_zero, Nat.add_comm (∑ j ∈ range rest, _) (d i * _),
      Nat.mul_add, mul_sum, mul_sum]
    congr 2
    · ring
    · apply sum_congr rfl
      intro j _
      ring
  rw [digit, hsplit, Nat.add_mul_div_left _ _ (Nat.pow_pos (Nat.two_pow_pos width)),
    Nat.div_eq_of_lt hlow, Nat.zero_add, Nat.add_mul_mod_self_left, Nat.mod_eq_of_lt hfield]

theorem diagonal_le {len s bound : Nat} {x y : Nat → Nat} (h : ∀ j k, x j * y k ≤ bound) :
    diagonal len x y s ≤ len * bound := by
  let indices := (range len ×ˢ range len).filter fun jk => jk.1 + jk.2 = s
  have hcard : indices.card ≤ len := by
    have hinj : Set.InjOn Prod.fst (indices : Set (Nat × Nat)) := by
      intro jk hjk jk' hjk' hfst
      have hsum := (mem_filter.mp hjk).2
      have hsum' := (mem_filter.mp hjk').2
      apply Prod.ext hfst
      omega
    have hmaps : ∀ jk ∈ indices, jk.1 ∈ range len := fun jk hjk =>
      (mem_product.mp (mem_filter.mp hjk).1).1
    simpa using card_le_card_of_injOn Prod.fst hmaps hinj
  calc
    diagonal len x y s ≤ indices.card • bound := sum_le_card_nsmul _ _ _ fun jk _ => h jk.1 jk.2
    _ = indices.card * bound := by rw [smul_eq_mul]
    _ ≤ len * bound := Nat.mul_le_mul_right _ hcard

/-- Two sequences that end at their middle have no diagonal beyond their length. -/
theorem diagonal_eq_zero {half s : Nat} {x y : Nat → Nat} (hx : ∀ j, half ≤ j → x j = 0)
    (hy : ∀ k, half ≤ k → y k = 0) (hs : 2 * half ≤ s) : diagonal (2 * half) x y s = 0 := by
  apply sum_eq_zero
  intro jk hjk
  have hsum := (mem_filter.mp hjk).2
  rcases Nat.lt_or_ge jk.1 half with hlow | hhigh
  · rw [hy jk.2 (by omega), Nat.mul_zero]
  · rw [hx jk.1 hhigh, Nat.zero_mul]

/-- Of two sequences that end at their middle, all the products meet within their length. -/
theorem sum_mul_sum_eq_sum_diagonal_of_half {half : Nat} {x y : Nat → Nat}
    (hx : ∀ j, half ≤ j → x j = 0) (hy : ∀ k, half ≤ k → y k = 0) (u : Nat) :
    (∑ j ∈ range (2 * half), x j * u ^ j) * ∑ k ∈ range (2 * half), y k * u ^ k =
      ∑ s ∈ range (2 * half), diagonal (2 * half) x y s * u ^ s := by
  rw [sum_mul_sum_eq_sum_diagonal, Nat.two_mul (2 * half), sum_range_add]
  refine Nat.add_eq_left.mpr (sum_eq_zero fun s _ => ?_)
  rw [diagonal_eq_zero hx hy (Nat.le_add_right _ s), Nat.zero_mul]

theorem diagonal_mod (modulus len s : Nat) (x y : Nat → Nat) :
    diagonal len (fun j => x j % modulus) (fun k => y k % modulus) s % modulus =
      diagonal len x y s % modulus := by
  rw [diagonal, diagonal, sum_nat_mod]
  conv_rhs => rw [sum_nat_mod]
  simp only [Nat.mul_mod_mod, Nat.mod_mul_mod]

/-- A number below the product of two moduli from its residue modulo `modulus` and the difference of
its two residues modulo `size`, where `modulus` is one more than a multiple of `size`. -/
theorem recover {size modulus value eta : Nat} (hmodulus : (size : Int) ∣ modulus - 1)
    (hvalue : value < size * modulus)
    (heta : (eta : Int) = ((value % size : Nat) - (value % modulus : Nat)) % size) :
    value % modulus + eta * modulus = value := by
  have hquotient : value / modulus < size := by
    rw [Nat.div_lt_iff_lt_mul (Nat.pos_of_ne_zero fun h => by simp [h] at hvalue)]
    exact hvalue
  have hdvd : (size : Int) ∣
      (value / modulus : Nat) - ((value % size : Nat) - (value % modulus : Nat)) := by
    have hsplit : (value : Int) = (value % modulus : Nat) + modulus * (value / modulus : Nat) := by
      exact_mod_cast (Nat.mod_add_div value modulus).symm
    have hsize : (size : Int) ∣ value - (value % size : Nat) := by
      push_cast
      exact Int.dvd_self_sub_emod
    have hrewrite : ((value / modulus : Nat) : Int) -
        ((value % size : Nat) - (value % modulus : Nat)) =
          (value - (value % size : Nat)) - (modulus - 1) * (value / modulus : Nat) := by
      linarith
    rw [hrewrite]
    exact hsize.sub (hmodulus.mul_right _)
  have hetaEq : (eta : Int) = (value / modulus : Nat) := by
    rw [heta, ← Int.emod_eq_emod_iff_emod_sub_eq_zero.mpr (Int.emod_eq_zero_of_dvd hdvd)]
    exact Int.emod_eq_of_lt (Int.natCast_nonneg _) (by exact_mod_cast hquotient)
  have hetaNat : eta = value / modulus := by exact_mod_cast hetaEq
  rw [hetaNat, Nat.mul_comm, Nat.mod_add_div]

end FermatMul.Radix
