import FermatMul.Proofs.Words.Value
import FermatMul.Words.LongProduct

/-!
Long multiplication is multiplication of values, row by row. Behind any number of rows the vector
holds the product of the words so far and the other factor, with zeros above it. So a row may store
its carry without adding it, and a row that is skipped would have changed nothing.
-/

namespace FermatMul.Words

variable {a b acc c : Words} {x : UInt32} {i j : Nat}

/-- One turn of the loop: the row of a word is added from the same index on, unless the word is
zero. -/
def rowAt (b : Words) (i : Nat) (x : UInt32) (c : Words) : Words :=
  c.take i ++ if x = 0 then c.drop i else addRow x b (c.drop i) 0

/-- The vector behind the rows of the lowest words. -/
def afterRows (a b : Words) : Nat → Words
  | 0 => zeros (a.length + b.length)
  | i + 1 => rowAt b i (wordAt a i) (afterRows a b i)

/-- The sums in the cells of a row, each before it is split into two words. -/
def rowSums (x : UInt32) : Words → Words → UInt32 → List Nat
  | y :: ys, c :: cs, carry =>
      (x.toNat * y.toNat + c.toNat + carry.toNat) :: rowSums x ys cs (mulAdd x y c carry).2
  | _, _, _ => []

/-- The carry out of the last cell of a row. -/
def rowCarry (x : UInt32) : Words → Words → UInt32 → UInt32
  | y :: ys, c :: cs, carry => rowCarry x ys cs (mulAdd x y c carry).2
  | _, _, carry => carry

theorem cell_lt (x y acc carry : UInt32) :
    x.toNat * y.toNat + acc.toNat + carry.toNat < 2 ^ 64 := by
  have hlow := (mulAdd x y acc carry).1.toNat_lt
  have hhigh := (mulAdd x y acc carry).2.toNat_lt
  rw [← mulAdd_eq]
  omega

theorem rowSums_lt (x : UInt32) (b acc : Words) (carry : UInt32) :
    ∀ sum ∈ rowSums x b acc carry, sum < 2 ^ 64 := by
  fun_induction rowSums x b acc carry with
  | case1 y ys c cs carry ih =>
      intro sum hsum
      rcases List.mem_cons.mp hsum with rfl | hrest
      · exact cell_lt x y c carry
      · exact ih sum hrest
  | case2 b acc carry => simp

theorem cell_mod (x y acc carry : UInt32) :
    (x.toNat * y.toNat + acc.toNat + carry.toNat) % 2 ^ 32 = (mulAdd x y acc carry).1.toNat := by
  rw [← mulAdd_eq, Nat.add_mul_mod_self_left, Nat.mod_eq_of_lt (UInt32.toNat_lt _)]

/-- The words that a row stores in its cells are the low halves of the sums. -/
theorem map_rowSums (h : b.length ≤ acc.length) (carry : UInt32) :
    (rowSums x b acc carry).map (· % 2 ^ 32) =
      ((addRow x b acc carry).take b.length).map UInt32.toNat := by
  fun_induction rowSums x b acc carry with
  | case1 y ys c cs carry ih =>
      rw [List.map_cons, cell_mod, ih (by simpa using h), addRow, List.length_cons,
        List.take_succ_cons, List.map_cons]
  | case2 b acc carry hends =>
      cases b with
      | nil => rfl
      | cons y ys =>
          cases acc with
          | nil => simp at h
          | cons c cs => exact (hends y ys c cs rfl rfl).elim

/-- The word above the cells of a row becomes the carry, whatever it was. -/
theorem wordAt_addRow (h : b.length < acc.length) (carry : UInt32) :
    wordAt (addRow x b acc carry) b.length = rowCarry x b acc carry := by
  fun_induction addRow x b acc carry with
  | case1 y ys c cs carry cell ih => simpa [wordAt, rowCarry] using ih (by simpa using h)
  | case2 c cs carry => simp [wordAt, rowCarry]
  | case3 b carry => simp at h

theorem toNat_addRow (x : UInt32) (b acc : Words) (carry : UInt32)
    (hlen : b.length < acc.length) (hacc : toNat acc < 2 ^ (32 * b.length)) :
    toNat (addRow x b acc carry) = x.toNat * toNat b + toNat acc + carry.toNat := by
  fun_induction addRow x b acc carry with
  | case1 y ys c cs carry cell ih =>
      have hcell : cell.1.toNat + 2 ^ 32 * cell.2.toNat =
          x.toNat * y.toNat + c.toNat + carry.toNat := mulAdd_eq x y c carry
      rw [List.length_cons, two_pow_words_succ, toNat_cons] at hacc
      have hrest := ih (by simpa using hlen) (by omega)
      rw [toNat_cons, hrest, toNat_cons, toNat_cons]
      calc
        cell.1.toNat + 2 ^ 32 * (x.toNat * toNat ys + toNat cs + cell.2.toNat) =
            cell.1.toNat + 2 ^ 32 * cell.2.toNat +
              2 ^ 32 * (x.toNat * toNat ys + toNat cs) := by ring
        _ = x.toNat * y.toNat + c.toNat + carry.toNat +
              2 ^ 32 * (x.toNat * toNat ys + toNat cs) := by rw [hcell]
        _ = x.toNat * (y.toNat + 2 ^ 32 * toNat ys) + (c.toNat + 2 ^ 32 * toNat cs) +
              carry.toNat := by ring
  | case2 c cs carry =>
      simp only [List.length_nil, Nat.mul_zero, Nat.pow_zero, Nat.lt_one_iff, toNat_cons] at hacc
      simp only [toNat_cons, toNat_nil]
      omega
  | case3 b carry => simp at hlen

theorem addRow_zero (hlen : b.length < acc.length) (hacc : toNat acc < 2 ^ (32 * b.length)) :
    addRow 0 b acc 0 = acc := by
  apply eq_of_toNat_eq (length_addRow ..)
  rw [toNat_addRow 0 b acc 0 hlen hacc]
  simp

theorem lt_length_drop (h : i + b.length < c.length) : b.length < (c.drop i).length := by
  rw [List.length_drop]
  omega

/-- Skipping the row of a zero word is no shortcut to another result. -/
theorem rowAt_eq (hlen : i + b.length < c.length) (hc : toNat c < 2 ^ (32 * (i + b.length)))
    (x : UInt32) : rowAt b i x c = c.take i ++ addRow x b (c.drop i) 0 := by
  rw [rowAt]
  split
  · next hx => rw [hx, addRow_zero (lt_length_drop hlen) (toNat_drop_lt hc)]
  · rfl

/-- What one row adds. -/
theorem toNat_rowAt (hlen : i + b.length < c.length) (hc : toNat c < 2 ^ (32 * (i + b.length)))
    (x : UInt32) : toNat (rowAt b i x c) = toNat c + 2 ^ (32 * i) * (x.toNat * toNat b) := by
  have hbottom : (c.take i).length = i := List.length_take_of_le (by omega)
  rw [rowAt_eq hlen hc, toNat_list_append,
    toNat_addRow x b _ 0 (lt_length_drop hlen) (toNat_drop_lt hc), hbottom, UInt32.toNat_zero,
    Nat.add_zero]
  calc
    toNat (c.take i) + 2 ^ (32 * i) * (x.toNat * toNat b + toNat (c.drop i)) =
        toNat (c.take i) + 2 ^ (32 * i) * toNat (c.drop i) +
          2 ^ (32 * i) * (x.toNat * toNat b) := by ring
    _ = toNat c + 2 ^ (32 * i) * (x.toNat * toNat b) := by rw [toNat_take_add_drop]

theorem length_rowAt (b : Words) (i : Nat) (x : UInt32) (c : Words) :
    (rowAt b i x c).length = c.length := by
  have hrow : (if x = 0 then c.drop i else addRow x b (c.drop i) 0).length = c.length - i := by
    split <;> simp
  rw [rowAt, List.length_append, hrow, List.length_take]
  omega

@[simp] theorem length_afterRows (a b : Words) (i : Nat) :
    (afterRows a b i).length = a.length + b.length := by
  induction i with
  | zero => exact length_zeros _
  | succ i ih => rw [afterRows, length_rowAt, ih]

theorem partial_product_lt (a b : Words) (i : Nat) :
    toNat (a.take i) * toNat b < 2 ^ (32 * (i + b.length)) := by
  rw [Nat.mul_add, Nat.pow_add]
  exact Nat.mul_lt_mul'' (toNat_take_lt a i) (toNat_lt b)

/-- The invariant of the loop. -/
theorem toNat_afterRows (hi : i ≤ a.length) :
    toNat (afterRows a b i) = toNat (a.take i) * toNat b := by
  induction i with
  | zero => simp [afterRows]
  | succ i ih =>
      have hvalue := ih (by omega)
      have hlen : i + b.length < (afterRows a b i).length := by
        rw [length_afterRows]
        omega
      have hlt : toNat (afterRows a b i) < 2 ^ (32 * (i + b.length)) :=
        hvalue ▸ partial_product_lt a b i
      rw [afterRows, toNat_rowAt hlen hlt, hvalue, toNat_take_succ]
      ring

theorem afterRows_lt (hi : i ≤ a.length) :
    toNat (afterRows a b i) < 2 ^ (32 * (i + b.length)) := by
  rw [toNat_afterRows hi]
  exact partial_product_lt a b i

/-- The last row of a run acts on the whole vector, the earlier ones have left it as it is. -/
theorem addRows_concat (b xs : Words) (x : UInt32) (acc : Words) :
    addRows b (xs ++ [x]) acc = rowAt b xs.length x (addRows b xs acc) := by
  induction xs generalizing acc with
  | nil =>
      simp only [List.nil_append, addRows, rowAt, List.length_nil, List.take_zero, List.drop_zero]
      split
      · next h => exact h.symm
      · next h => exact h.symm
  | cons y ys ih =>
      rw [List.cons_append, addRows, addRows]
      split
      · cases b <;> simp [rowAt, addRow]
      · next c cs h => simp [rowAt, ih]

theorem afterRows_eq (hi : i ≤ a.length) :
    afterRows a b i = addRows b (a.take i) (zeros (a.length + b.length)) := by
  induction i with
  | zero => rfl
  | succ i ih =>
      have hword : a.take (i + 1) = a.take i ++ [wordAt a i] := by
        rw [wordAt_of_lt (by omega), List.take_append_getElem]
      have hindex : (a.take i).length = i := List.length_take_of_le (by omega)
      rw [afterRows, ih (by omega), hword, addRows_concat, hindex]

theorem longProduct_eq (a b : Words) : longProduct a b = afterRows a b a.length := by
  rw [afterRows_eq (Nat.le_refl _), List.take_length]
  rfl

theorem toNat_longProduct (a b : Words) : toNat (longProduct a b) = toNat a * toNat b := by
  rw [longProduct_eq, toNat_afterRows (Nat.le_refl _), List.take_length]

/-- Long multiplication is exact, and so is each of its steps. Behind any number of rows the words
that they reached hold the product so far and those above are zero. The next row stores its carry
into the first of these zeros, does the same whether it is skipped or not, and forms no sum beyond
64 bits. -/
theorem long_multiplication_exact (a b : Words) :
    ((longProduct a b).length = a.length + b.length ∧
      toNat (longProduct a b) = toNat a * toNat b) ∧
    longProduct a b = afterRows a b a.length ∧
    (∀ i ≤ a.length, (afterRows a b i).length = a.length + b.length ∧
      toNat ((afterRows a b i).take (i + b.length)) = toNat (a.take i) * toNat b ∧
      ∀ j, i + b.length ≤ j → wordAt (afterRows a b i) j = 0) ∧
    ∀ i (hi : i < a.length),
      let rest := (afterRows a b i).drop i
      afterRows a b (i + 1) = rowAt b i a[i] (afterRows a b i) ∧
      afterRows a b (i + 1) = (afterRows a b i).take i ++ addRow a[i] b rest 0 ∧
      wordAt (afterRows a b i) (i + b.length) = 0 ∧
      wordAt (afterRows a b (i + 1)) (i + b.length) = rowCarry a[i] b rest 0 ∧
      (rowSums a[i] b rest 0).map (· % 2 ^ 32) =
        ((addRow a[i] b rest 0).take b.length).map UInt32.toNat ∧
      ∀ sum ∈ rowSums a[i] b rest 0, sum < 2 ^ 64 := by
  refine ⟨⟨length_longProduct a b, toNat_longProduct a b⟩, longProduct_eq a b, ?_, ?_⟩
  · intro i hi
    have hlt : toNat (afterRows a b i) < 2 ^ (32 * (i + b.length)) := afterRows_lt hi
    refine ⟨length_afterRows a b i, ?_, fun j => wordAt_eq_zero hlt⟩
    rw [toNat_take, Nat.mod_eq_of_lt hlt, toNat_afterRows hi]
  · intro i hi rest
    have hlt : toNat (afterRows a b i) < 2 ^ (32 * (i + b.length)) := afterRows_lt hi.le
    have hlen : i + b.length < (afterRows a b i).length := by
      rw [length_afterRows]
      omega
    have hrest : b.length < rest.length := lt_length_drop hlen
    have hturn : afterRows a b (i + 1) = rowAt b i a[i] (afterRows a b i) := by
      rw [afterRows, wordAt_of_lt hi]
    have hrow := hturn.trans (rowAt_eq hlen hlt a[i])
    refine ⟨hturn, hrow, wordAt_eq_zero hlt (Nat.le_refl _), ?_, map_rowSums hrest.le 0,
      rowSums_lt a[i] b rest 0⟩
    rw [hrow, wordAt_append_right (List.length_take_of_le (by omega)), wordAt_addRow hrest]

/-- A factor with a zero word in its middle, behind its three rows. -/
theorem long_multiplication_exact_three :
    let a : Words := [0xffffffff, 0, 0xdeadbeef]
    let b : Words := [0xffffffff, 0x80000000]
    toNat (longProduct a b) = (2 ^ 32 - 1 + 2 ^ 64 * 0xdeadbeef) * (2 ^ 63 + 2 ^ 32 - 1) ∧
      (1 ≤ a.length ∧ toNat ((afterRows a b 1).take 3) = (2 ^ 32 - 1) * (2 ^ 63 + 2 ^ 32 - 1) ∧
        wordAt (afterRows a b 1) 3 = 0) ∧
      (1 < a.length ∧ afterRows a b 2 = (afterRows a b 1).take 1 ++
        addRow 0 b ((afterRows a b 1).drop 1) 0) ∧
      ∀ sum ∈ rowSums 0xdeadbeef b ((afterRows a b 2).drop 2) 0, sum < 2 ^ 64 := by
  intro a b
  obtain ⟨⟨_, hvalue⟩, _, hreached, hrows⟩ := long_multiplication_exact a b
  obtain ⟨_, hfirst, habove⟩ := hreached 1 (by decide)
  obtain ⟨_, hskipped, _⟩ := hrows 1 (by decide)
  obtain ⟨_, _, _, _, _, hsums⟩ := hrows 2 (by decide)
  exact ⟨hvalue.trans (by decide), ⟨by decide, hfirst.trans (by decide), habove 3 (by decide)⟩,
    ⟨by decide, hskipped⟩, hsums⟩

end FermatMul.Words
