import Mathlib.Data.List.Nodup
import Mathlib.Data.Nat.Bitwise
import FermatMul.Proofs.Fourier.BitReversal
import FermatMul.Proofs.Loop

namespace FermatMul.BitReversal

/-- The `k` binary digits of an index in the opposite order. -/
def mirror (k i : Nat) : Nat :=
  (BitVec.ofNat k i).reverse.toNat

section Counter

variable {k i : Nat}

theorem testBit_reversed (hi : i < 2 ^ k) {p : Nat} (hp : p < k) :
    (reversed k i).testBit p = i.testBit (k - 1 - p) := by
  induction k generalizing i p with
  | zero => omega
  | succ k ih =>
      rw [Nat.pow_succ] at hi
      obtain ⟨j, hj⟩ := Nat.even_or_odd' i
      have hjlt : j < 2 ^ k := by omega
      have hhalf : i / 2 = j := by omega
      rcases Nat.lt_succ_iff_lt_or_eq.mp hp with hlow | rfl
      · have hplace : k + 1 - 1 - p = (k - 1 - p) + 1 := by omega
        rw [hplace, Nat.testBit_succ, hhalf, ← ih hjlt hlow]
        rcases hj with rfl | rfl
        · rw [reversed_even]
        · rw [reversed_odd, Nat.testBit_two_pow_add_gt hlow]
      · rw [Nat.add_sub_cancel, Nat.sub_self]
        rcases hj with rfl | rfl
        · rw [reversed_even, Nat.testBit_lt_two_pow (reversed_lt p j)]
          simp
        · rw [reversed_odd, Nat.testBit_two_pow_add_eq, Nat.testBit_lt_two_pow (reversed_lt p j)]
          simp

theorem reversed_eq_mirror (hi : i < 2 ^ k) : reversed k i = mirror k i := by
  apply Nat.eq_of_testBit_eq
  intro p
  rw [mirror, BitVec.testBit_toNat, BitVec.getLsbD_reverse, BitVec.getMsbD_eq_getLsbD,
    BitVec.getLsbD_ofNat]
  rcases Nat.lt_or_ge p k with hp | hp
  · rw [testBit_reversed hi hp]
    simp [hp]
    omega
  · have hpow : 2 ^ k ≤ 2 ^ p := Nat.pow_le_pow_right Nat.two_pos hp
    rw [Nat.testBit_lt_two_pow (Nat.lt_of_lt_of_le (reversed_lt k i) hpow)]
    simp [Nat.not_lt.mpr hp]

theorem reversed_ne_zero (hi : i < 2 ^ k) (hne : i ≠ 0) : reversed k i ≠ 0 := by
  intro hzero
  have hback := reversed_reversed hi
  rw [hzero, reversed_zero] at hback
  exact hne hback.symm

/-- The loop that carries one into the counter: it clears set bits, one place lower each turn. -/
abbrev ClearsBits : Nat → Nat × Nat → Nat × Nat → Prop :=
  Loop (fun s => s.1 &&& s.2 ≠ 0) fun s => (s.1 ^^^ s.2, s.2 >>> 1)

/-- The loop stops within the `k` bits, unless all of them were set. -/
theorem clearsBits_next {counter : Nat} (h : counter < 2 ^ k) :
    ∃ turns s, ClearsBits turns (counter, 2 ^ k >>> 1) s ∧ s.1 ^^^ s.2 = next k counter ∧
      (next k counter ≠ 0 → turns < k ∧ s.2 ≠ 0) := by
  induction k generalizing counter with
  | zero =>
      obtain rfl : counter = 0 := by simpa using h
      exact ⟨0, _, .done (by decide), rfl, fun hne => absurd rfl hne⟩
  | succ k ih =>
      have hbit : 2 ^ (k + 1) >>> 1 = 2 ^ k := by
        rw [Nat.shiftRight_one, Nat.pow_succ, Nat.mul_div_cancel _ Nat.two_pos]
      rw [hbit]
      rcases Nat.lt_or_ge counter (2 ^ k) with hlow | hhigh
      · have hclear : counter &&& 2 ^ k = 0 := by
          rw [Nat.and_two_pow, Nat.testBit_lt_two_pow hlow, Bool.toNat_false, Nat.zero_mul]
        refine ⟨0, _, .done (not_not.mpr hclear), ?_, fun _ => ⟨k.succ_pos, ?_⟩⟩
        · rw [next_succ_of_lt hlow, xor_two_pow_of_lt hlow]
        · exact (Nat.two_pow_pos k).ne'
      · obtain ⟨rest, rfl⟩ : ∃ rest, counter = 2 ^ k + rest := ⟨counter - 2 ^ k, by omega⟩
        have hrest : rest < 2 ^ k := by
          rw [Nat.pow_succ] at h
          omega
        have hset : (2 ^ k + rest) &&& 2 ^ k ≠ 0 := by
          rw [Nat.and_two_pow, Nat.testBit_two_pow_add_eq, Nat.testBit_lt_two_pow hrest]
          simp
        have hcleared : (2 ^ k + rest) ^^^ 2 ^ k = rest := by
          rw [← xor_two_pow_of_lt hrest, Nat.xor_assoc, Nat.xor_self, Nat.xor_zero]
        obtain ⟨turns, s, hrun, hvalue, hstop⟩ := ih hrest
        rw [next_succ_two_pow_add hrest]
        refine ⟨turns + 1, s, .turn hset ?_, hvalue, fun hne => ?_⟩
        · rw [hcleared]
          exact hrun
        · obtain ⟨hturns, hplace⟩ := hstop hne
          exact ⟨Nat.succ_lt_succ hturns, hplace⟩

end Counter

section Turns

variable {α : Type} {k : Nat}

/-- One turn at an index: the counter moves on, and the elements at both are exchanged. -/
def turn (k : Nat) (s : Nat × Array α) (i : Nat) : Nat × Array α :=
  (next k s.1, exchange s.2 i (next k s.1))

/-- The counter and the array after the turns of the indices from one up to `m`. -/
def afterTurns (k m : Nat) (xs : Array α) : Nat × Array α :=
  (List.range' 1 m).foldl (turn k) (0, xs)

theorem steps_eq_foldl (k : Nat) (is : List Nat) (counter : Nat) (xs : Array α) :
    steps k is counter xs = (is.foldl (turn k) (counter, xs)).2 := by
  induction is generalizing counter xs with
  | nil => rfl
  | cons i is ih => exact ih _ _

theorem permute_eq_afterTurns {xs : Array α} (hsize : xs.size = 2 ^ k) :
    permute xs = (afterTurns k (2 ^ k - 1) xs).2 := by
  rw [permute, hsize, Nat.log2_two_pow, steps_eq_foldl, afterTurns]

theorem afterTurns_fst (k m : Nat) (xs : Array α) : (afterTurns k m xs).1 = reversed k m := by
  induction m with
  | zero => rfl
  | succ m ih =>
      rw [afterTurns, List.range'_1_concat, List.foldl_append, ← afterTurns]
      change next k (afterTurns k m xs).1 = next k (reversed k m)
      rw [ih]

/-- The pairs of places that the turns at some indices exchange, in their order. -/
def exchanges (k : Nat) : List Nat → Nat → List (Nat × Nat)
  | [], _ => []
  | i :: is, counter =>
      let counter := next k counter
      if i < counter then (i, counter) :: exchanges k is counter else exchanges k is counter

theorem steps_eq_exchanges (k : Nat) (is : List Nat) (counter : Nat) (xs : Array α) :
    steps k is counter xs =
      (exchanges k is counter).foldl (fun ys p => ys.swapIfInBounds p.1 p.2) xs := by
  induction is generalizing counter xs with
  | nil => rfl
  | cons i is ih =>
      rw [steps, exchanges, exchange, ih]
      split <;> rfl

/-- The loop sees each index once, together with its mirror image. -/
theorem exchanges_eq_map (k start count : Nat) :
    exchanges k (List.range' (start + 1) count) (reversed k start) =
      ((List.range' (start + 1) count).filter fun i => i < reversed k i).map
        fun i => (i, reversed k i) := by
  induction count generalizing start with
  | zero => rfl
  | succ count ih =>
      have hrest := ih (start + 1)
      rw [List.range'_succ]
      change (if start + 1 < reversed k (start + 1) then
        (start + 1, reversed k (start + 1)) :: exchanges k _ (reversed k (start + 1))
        else exchanges k _ (reversed k (start + 1))) = _
      rw [hrest]
      split
      · next hlt => rw [List.filter_cons_of_pos (by simpa using hlt), List.map_cons]
      · next hge => rw [List.filter_cons_of_neg (by simpa using hge)]

/-- All exchanges of the loop over an array of `2 ^ k` elements. -/
def allExchanges (k : Nat) : List (Nat × Nat) :=
  exchanges k (List.range' 1 (2 ^ k - 1)) 0

theorem nodup_allExchanges (k : Nat) : (allExchanges k).Nodup := by
  rw [allExchanges, ← reversed_zero k, exchanges_eq_map]
  refine ((List.nodup_range' 1).filter _).map ?_
  intro i j h
  exact (Prod.mk.inj h).1

/-- An index that is its own mirror image is not below it, and of two different ones one is. -/
theorem mem_allExchanges_iff {i j : Nat} :
    (i, j) ∈ allExchanges k ↔ i < j ∧ j < 2 ^ k ∧ j = mirror k i := by
  rw [allExchanges, ← reversed_zero k, exchanges_eq_map]
  simp only [List.mem_map, List.mem_filter, List.mem_range'_1, decide_eq_true_eq, Prod.mk.injEq]
  constructor
  · rintro ⟨i, ⟨⟨hpos, hi⟩, hlt⟩, rfl, rfl⟩
    exact ⟨hlt, reversed_lt k i, reversed_eq_mirror (by omega)⟩
  · rintro ⟨hlt, hj, hmirror⟩
    have hi : i < 2 ^ k := Nat.lt_trans hlt hj
    rw [← reversed_eq_mirror hi] at hmirror
    have hpos : i ≠ 0 := by
      rintro rfl
      rw [hmirror, reversed_zero] at hlt
      exact Nat.lt_irrefl 0 hlt
    exact ⟨i, ⟨by omega, by omega⟩, rfl, hmirror.symm⟩

theorem perm_exchange (xs : Array α) (i j : Nat) : (exchange xs i j).Perm xs := by
  rw [exchange]
  split
  · rw [Array.swapIfInBounds_def]
    split
    · split
      · exact Array.swap_perm _ _
      · exact .rfl
    · exact .rfl
  · exact .rfl

theorem perm_steps (k : Nat) (is : List Nat) (counter : Nat) (xs : Array α) :
    (steps k is counter xs).Perm xs := by
  induction is generalizing counter xs with
  | nil => exact .rfl
  | cons i is ih => exact (ih _ _).trans (perm_exchange xs i _)

theorem permute_permute {xs : Array α} (hsize : xs.size = 2 ^ k) : permute (permute xs) = xs := by
  have hsize' : (permute xs).size = 2 ^ k := (size_permute xs).trans hsize
  apply Array.ext_getElem?
  intro i
  rcases Nat.lt_or_ge i (2 ^ k) with hi | hi
  · rw [getElem?_permute hsize' hi, getElem?_permute hsize (reversed_lt k i), reversed_reversed hi]
  · rw [Array.getElem?_eq_none (by rw [size_permute, hsize']; exact hi),
      Array.getElem?_eq_none (by rw [hsize]; exact hi)]

end Turns

/-- The loop over an array of `2 ^ k` elements keeps in its counter the index mirrored. The loop
within a turn, which finds the next one, always stops at a clear bit. The exchanges are those of an
index and a higher one that is its mirror image, each made once. So every element moves to the
mirror image of its index, a second run moves it back, and none is lost. -/
theorem bit_reversal_exact {α : Type} {k : Nat} {xs : Array α} (hsize : xs.size = 2 ^ k) :
    (∀ i < 2 ^ k, (afterTurns k i xs).1 = mirror k i) ∧
    (∀ i, i + 1 < 2 ^ k → ∃ turns s, turns < k ∧ s.2 ≠ 0 ∧ s.1 ^^^ s.2 = mirror k (i + 1) ∧
      ∀ turns' s', ClearsBits turns' (mirror k i, xs.size >>> 1) s' ↔ turns' = turns ∧ s' = s) ∧
    (permute xs = (afterTurns k (2 ^ k - 1) xs).2 ∧
      permute xs = (allExchanges k).foldl (fun ys p => ys.swapIfInBounds p.1 p.2) xs ∧
      (allExchanges k).Nodup ∧
      ∀ i j, (i, j) ∈ allExchanges k ↔ i < j ∧ j < 2 ^ k ∧ j = mirror k i) ∧
    (∀ i < 2 ^ k, (permute xs)[i]? = xs[mirror k i]?) ∧
    permute (permute xs) = xs ∧ (permute xs).Perm xs := by
  refine ⟨fun i hi => ?_, fun i hi => ?_, ⟨permute_eq_afterTurns hsize, ?_, nodup_allExchanges k,
    fun i j => mem_allExchanges_iff⟩, fun i hi => ?_, permute_permute hsize, perm_steps _ _ _ _⟩
  · rw [afterTurns_fst, reversed_eq_mirror hi]
  · have hi' : i < 2 ^ k := by omega
    obtain ⟨turns, s, hrun, hvalue, hstop⟩ := clearsBits_next (reversed_lt k i)
    obtain ⟨hturns, hbit⟩ := hstop (reversed_ne_zero hi (Nat.succ_ne_zero i))
    refine ⟨turns, s, hturns, hbit, hvalue.trans (reversed_eq_mirror hi), fun turns' s' => ?_⟩
    rw [hsize, ← reversed_eq_mirror hi']
    exact hrun.iff_of_run
  · rw [permute, hsize, Nat.log2_two_pow, steps_eq_exchanges, allExchanges]
  · rw [← reversed_eq_mirror hi, getElem?_permute hsize hi]

/-- Eight elements: from the index three, two bits of the counter are cleared. -/
theorem bit_reversal_exact_eight :
    let xs := #['a', 'b', 'c', 'd', 'e', 'f', 'g', 'h']
    xs.size = 2 ^ 3 ∧ (afterTurns 3 4 xs).1 = 1 ∧
      (∃ turns s, turns < 3 ∧ s.1 ^^^ s.2 = 1 ∧ ClearsBits turns (6, 4) s) ∧
      (3, 6) ∈ allExchanges 3 ∧ (5, 5) ∉ allExchanges 3 ∧
      (permute xs)[3]? = some 'g' ∧ permute (permute xs) = xs ∧ (permute xs).Perm xs := by
  intro xs
  have hsize : xs.size = 2 ^ 3 := rfl
  obtain ⟨hcounter, hcarry, ⟨_, _, _, hpairs⟩, hplaces, hback, hperm⟩ := bit_reversal_exact hsize
  obtain ⟨turns, s, hturns, _, hnext, hrun⟩ := hcarry 3 (by decide)
  have hstart : (mirror 3 3, xs.size >>> 1) = (6, 4) := by decide
  rw [hstart] at hrun
  exact ⟨hsize, hcounter 4 (by decide), ⟨turns, s, hturns, hnext, (hrun turns s).mpr ⟨rfl, rfl⟩⟩,
    (hpairs 3 6).mpr (by decide), fun h => absurd ((hpairs 5 5).mp h) (by decide),
    hplaces 3 (by decide), hback, hperm⟩

example : allExchanges 3 = [(1, 4), (3, 6)] := by decide

end FermatMul.BitReversal
