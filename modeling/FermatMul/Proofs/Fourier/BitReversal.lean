import Mathlib.Tactic.Ring
import FermatMul.Fourier.BitReversal

namespace FermatMul.BitReversal

theorem xor_two_pow_of_lt {k counter : Nat} (h : counter < 2 ^ k) :
    counter ^^^ 2 ^ k = 2 ^ k + counter := by
  have hdisjoint : 2 ^ k + counter = 2 ^ k ||| counter := by
    simpa using Nat.two_pow_add_eq_or_of_lt h 1
  rw [hdisjoint]
  apply Nat.eq_of_testBit_eq
  intro i
  rw [Nat.testBit_xor, Nat.testBit_or, Nat.testBit_two_pow]
  by_cases hi : k = i
  · subst hi
    simp [Nat.testBit_lt_two_pow h]
  · simp [hi]

theorem next_succ_of_lt {k counter : Nat} (h : counter < 2 ^ k) :
    next (k + 1) counter = 2 ^ k + counter := by
  simp [next, Nat.testBit_lt_two_pow h, xor_two_pow_of_lt h]

theorem next_succ_two_pow_add {k counter : Nat} (h : counter < 2 ^ k) :
    next (k + 1) (2 ^ k + counter) = next k counter := by
  have htop : (2 ^ k + counter).testBit k = true := by
    rw [Nat.testBit_two_pow_add_eq, Nat.testBit_lt_two_pow h]
    rfl
  have hclear : (2 ^ k + counter) ^^^ 2 ^ k = counter := by
    rw [← xor_two_pow_of_lt h, Nat.xor_assoc, Nat.xor_self, Nat.xor_zero]
  rw [next, htop, if_pos rfl, hclear]

theorem next_lt {k counter : Nat} (h : counter < 2 ^ k) : next k counter < 2 ^ k := by
  induction k generalizing counter with
  | zero => exact h
  | succ k ih =>
      rw [Nat.pow_succ] at h ⊢
      by_cases hlow : counter < 2 ^ k
      · rw [next_succ_of_lt hlow]
        omega
      · obtain ⟨rest, rfl⟩ : ∃ rest, counter = 2 ^ k + rest := ⟨counter - 2 ^ k, by omega⟩
        have hrest : rest < 2 ^ k := by omega
        rw [next_succ_two_pow_add hrest]
        have := ih hrest
        omega

@[simp] theorem reversed_zero (k : Nat) : reversed k 0 = 0 := rfl

theorem reversed_lt (k i : Nat) : reversed k i < 2 ^ k := by
  induction i with
  | zero => exact Nat.two_pow_pos k
  | succ i ih => exact next_lt ih

theorem reversed_double (k i : Nat) :
    reversed (k + 1) (2 * i) = reversed k i ∧
      reversed (k + 1) (2 * i + 1) = 2 ^ k + reversed k i := by
  induction i with
  | zero => exact ⟨rfl, next_succ_of_lt (Nat.two_pow_pos k)⟩
  | succ i ih =>
      have heven : reversed (k + 1) (2 * (i + 1)) = reversed k (i + 1) := by
        change next (k + 1) (reversed (k + 1) (2 * i + 1)) = next k (reversed k i)
        rw [ih.2, next_succ_two_pow_add (reversed_lt k i)]
      refine ⟨heven, ?_⟩
      change next (k + 1) (reversed (k + 1) (2 * (i + 1))) = _
      rw [heven, next_succ_of_lt (reversed_lt k (i + 1))]

theorem reversed_even (k i : Nat) : reversed (k + 1) (2 * i) = reversed k i :=
  (reversed_double k i).1

theorem reversed_odd (k i : Nat) : reversed (k + 1) (2 * i + 1) = 2 ^ k + reversed k i :=
  (reversed_double k i).2

theorem reversed_top {k i : Nat} (hi : i < 2 ^ k) :
    reversed (k + 1) i = 2 * reversed k i ∧
      reversed (k + 1) (2 ^ k + i) = 2 * reversed k i + 1 := by
  induction k generalizing i with
  | zero =>
      obtain rfl : i = 0 := by simpa using hi
      exact ⟨rfl, by decide⟩
  | succ k ih =>
      rw [Nat.pow_succ] at hi
      obtain ⟨j, hj⟩ := Nat.even_or_odd' i
      obtain ⟨hlow, htop⟩ := ih (i := j) (by omega)
      rcases hj with rfl | rfl
      · have hsplit : 2 ^ (k + 1) + 2 * j = 2 * (2 ^ k + j) := by ring
        rw [hsplit, reversed_even, reversed_even, reversed_even, hlow, htop]
        exact ⟨rfl, rfl⟩
      · have hsplit : 2 ^ (k + 1) + (2 * j + 1) = 2 * (2 ^ k + j) + 1 := by ring
        rw [hsplit, reversed_odd, reversed_odd, reversed_odd, hlow, htop, Nat.pow_succ]
        constructor <;> ring

theorem reversed_reversed {k i : Nat} (hi : i < 2 ^ k) : reversed k (reversed k i) = i := by
  induction k generalizing i with
  | zero =>
      obtain rfl : i = 0 := by simpa using hi
      rfl
  | succ k ih =>
      rw [Nat.pow_succ] at hi
      obtain ⟨j, hj⟩ := Nat.even_or_odd' i
      have hback := ih (i := j) (by omega)
      obtain ⟨hlow, htop⟩ := reversed_top (reversed_lt k j)
      rcases hj with rfl | rfl
      · rw [reversed_even, hlow, hback]
      · rw [reversed_odd, htop, hback]

variable {α : Type}

/-- What the exchanges before index `bound` have done: the elements whose index, or whose reversed
index, is below it are in their places, and the others have not moved. -/
def Placed (k bound : Nat) (xs ys : Array α) : Prop :=
  ∀ i < 2 ^ k, ys[i]? =
    if min i (reversed k i) < bound then xs[reversed k i]? else xs[i]?

theorem placed_one {k : Nat} (xs : Array α) : Placed k 1 xs xs := by
  intro i hi
  split
  · next h =>
      have hzero : i = 0 := by
        rcases Nat.eq_zero_or_pos i with hi0 | hipos
        · exact hi0
        · have hrev : reversed k i = 0 := by omega
          rw [← reversed_reversed hi, hrev, reversed_zero]
      rw [hzero, reversed_zero]
  · rfl

theorem getElem?_exchange {xs : Array α} {i j : Nat} (hi : i < xs.size) (hj : j < xs.size)
    (p : Nat) :
    (exchange xs i j)[p]? =
      if i < j then if p = i then xs[j]? else if p = j then xs[i]? else xs[p]? else xs[p]? := by
  rw [exchange]
  split
  · next hlt =>
      rw [Array.swapIfInBounds_def, dif_pos hi, dif_pos hj, Array.getElem?_swap]
      by_cases hpi : p = i
      · rw [hpi, if_neg (Nat.ne_of_gt hlt), if_pos rfl, if_pos rfl, Array.getElem?_eq_getElem hj]
      · by_cases hpj : p = j
        · rw [hpj, if_pos rfl, if_neg (Nat.ne_of_gt hlt), if_pos rfl,
            Array.getElem?_eq_getElem hi]
        · rw [if_neg (Ne.symm hpj), if_neg (Ne.symm hpi), if_neg hpi, if_neg hpj]
  · rfl

theorem placed_exchange {k bound : Nat} {xs ys : Array α} (hsize : ys.size = 2 ^ k)
    (hbound : bound < 2 ^ k) (h : Placed k bound xs ys) :
    Placed k (bound + 1) xs (exchange ys bound (reversed k bound)) := by
  intro i hi
  have hrev := reversed_lt k bound
  have hback := reversed_reversed hbound
  have hsame : reversed k i = bound → i = reversed k bound := by
    rintro rfl
    exact (reversed_reversed hi).symm
  rw [getElem?_exchange (by omega) (by omega)]
  by_cases hlt : bound < reversed k bound
  · rw [if_pos hlt]
    by_cases hleft : i = bound
    · rw [if_pos hleft, h _ hrev, hback, hleft, if_neg (by omega), if_pos (by omega)]
    · rw [if_neg hleft]
      by_cases hright : i = reversed k bound
      · rw [if_pos hright, h _ hbound, hright, hback, if_neg (by omega), if_pos (by omega)]
      · have hmin : min i (reversed k i) < bound + 1 ↔ min i (reversed k i) < bound := by
          have : reversed k i ≠ bound := fun heq => hright (hsame heq)
          omega
        rw [if_neg hright, h i hi]
        simp only [hmin]
  · rw [if_neg hlt, h i hi]
    by_cases hfixed : i = bound ∧ reversed k bound = bound
    · -- A fixed point is in its place before and after its step.
      obtain ⟨rfl, hfix⟩ := hfixed
      rw [hfix, ite_self, ite_self]
    · have hmin : min i (reversed k i) < bound + 1 ↔ min i (reversed k i) < bound := by
        by_cases hleft : i = bound
        · subst hleft
          have : reversed k i ≠ i := fun heq => hfixed ⟨rfl, heq⟩
          omega
        · by_cases hright : reversed k i = bound
          · have := hsame hright
            omega
          · omega
      simp only [hmin]

/-- The run of the exchanges from index `bound` on: one step places one more index. -/
theorem placed_steps {k : Nat} {xs : Array α} (count : Nat) {bound : Nat} {ys : Array α}
    (hsize : ys.size = 2 ^ k) (hcount : bound + 1 + count ≤ 2 ^ k)
    (h : Placed k (bound + 1) xs ys) :
    Placed k (bound + 1 + count) xs
      (steps k (List.range' (bound + 1) count) (reversed k bound) ys) := by
  induction count generalizing bound ys with
  | zero => exact h
  | succ count ih =>
      have hnext := placed_exchange hsize (by omega) h
      have hrest := ih (by rw [size_exchange, hsize]) (by omega) hnext
      rw [Nat.add_right_comm (bound + 1) 1 count] at hrest
      exact hrest

theorem getElem?_permute {k : Nat} {xs : Array α} (hsize : xs.size = 2 ^ k) {i : Nat}
    (hi : i < 2 ^ k) : (permute xs)[i]? = xs[reversed k i]? := by
  have hpos := Nat.two_pow_pos k
  have hrun := placed_steps (2 ^ k - 1) hsize (by omega) (placed_one xs)
  have hi' := hrun i hi
  rw [if_pos (by omega)] at hi'
  rw [permute, hsize, Nat.log2_two_pow]
  exact hi'

end FermatMul.BitReversal
