import FermatMul.Proofs.Words.Value

/-!
The value equations of the carry chains. What leaves a chain at its top is counted at the weight of
the first word that the chain did not reach; the words from there on stay. A subtraction takes back
the addition of the same vector, and its flag is that of the addition.
-/

namespace FermatMul.Words

/-- Where a chain stops, one of its vectors has no word left. -/
theorem eq_nil_or_eq_nil {a b : Words}
    (h : ∀ x xs y ys, a = x :: xs → b = y :: ys → False) : a = [] ∨ b = [] := by
  cases a with
  | nil => exact .inl rfl
  | cons x xs =>
      cases b with
      | nil => exact .inr rfl
      | cons y ys => exact (h x xs y ys rfl rfl).elim

theorem toNat_addCarry (a b : Words) (carry : Bool) :
    toNat (addCarry a b carry).1 +
        2 ^ (32 * min a.length b.length) * (addCarry a b carry).2.toNat =
      toNat a + toNat (b.take a.length) + carry.toNat := by
  fun_induction addCarry a b carry with
  | case1 x xs y ys carry step rest ih =>
      have hword : step.1.toNat + 2 ^ 32 * step.2.toNat = x.toNat + y.toNat + carry.toNat :=
        addWord_eq x y carry
      change toNat rest.1 + _ * rest.2.toNat = _ at ih
      change toNat (step.1 :: rest.1) + _ * rest.2.toNat = _
      simp only [List.length_cons, Nat.add_min_add_right, List.take_succ_cons, toNat_cons,
        two_pow_words_succ, Nat.mul_assoc]
      generalize 2 ^ (32 * min xs.length ys.length) * rest.2.toNat = overflow at ih ⊢
      omega
  | case2 xs ys carry hnil =>
      rcases eq_nil_or_eq_nil hnil with rfl | rfl
      · simp
      · simp

theorem toNat_subBorrow (a b : Words) (borrow : Bool) :
    toNat (subBorrow a b borrow).1 + toNat (b.take a.length) + borrow.toNat =
      toNat a + 2 ^ (32 * min a.length b.length) * (subBorrow a b borrow).2.toNat := by
  fun_induction subBorrow a b borrow with
  | case1 x xs y ys borrow step rest ih =>
      have hword : step.1.toNat + y.toNat + borrow.toNat = x.toNat + 2 ^ 32 * step.2.toNat :=
        subWord_eq x y borrow
      change toNat rest.1 + _ + _ = _ + _ * rest.2.toNat at ih
      change toNat (step.1 :: rest.1) + _ + _ = _ + _ * rest.2.toNat
      simp only [List.length_cons, Nat.add_min_add_right, List.take_succ_cons, toNat_cons,
        two_pow_words_succ, Nat.mul_assoc]
      generalize 2 ^ (32 * min xs.length ys.length) * rest.2.toNat = overflow at ih ⊢
      omega
  | case2 xs ys borrow hnil =>
      rcases eq_nil_or_eq_nil hnil with rfl | rfl
      · simp
      · simp

/-- Vectors of one length are added whole. -/
theorem toNat_addCarry_of_length_eq {a b : Words} (hlen : b.length = a.length) :
    toNat (addCarry a b false).1 + 2 ^ (32 * a.length) * (addCarry a b false).2.toNat =
      toNat a + toNat b := by
  have hsum := toNat_addCarry a b false
  rwa [List.take_of_length_le hlen.le, hlen, Nat.min_self, Bool.toNat_false, Nat.add_zero] at hsum

/-- The carry out of a word is at most one, so a sum and its carry are one addition. -/
theorem toNat_add_overflow (x carry : UInt32) :
    (x + carry).toNat + 2 ^ 32 * (decide (x + carry < x)).toNat = x.toNat + carry.toNat := by
  have hx := x.toNat_lt
  have hc := carry.toNat_lt
  have hsum : (x + carry).toNat = (x.toNat + carry.toNat) % 2 ^ 32 := UInt32.toNat_add x carry
  rcases Nat.lt_or_ge (x + carry).toNat x.toNat with hlt | hge
  · simp only [UInt32.lt_iff_toNat_lt.mpr hlt, decide_true, Bool.toNat_true]
    omega
  · have hnot : ¬ x + carry < x := fun h => Nat.not_lt_of_ge hge (UInt32.lt_iff_toNat_lt.mp h)
    simp only [hnot, decide_false, Bool.toNat_false]
    omega

theorem toNat_ripple (a : Words) (carry : UInt32) :
    toNat (ripple a carry).1 + 2 ^ (32 * a.length) * (ripple a carry).2.toNat =
      toNat a + carry.toNat := by
  fun_induction ripple a carry with
  | case1 carry => simp
  | case2 x xs => simp
  | case3 x xs carry hcarry sum rest ih =>
      have hword : sum.toNat + 2 ^ 32 * (decide (sum < x)).toNat = x.toNat + carry.toNat :=
        toNat_add_overflow x carry
      change toNat rest.1 + _ * rest.2.toNat = _ at ih
      change toNat (sum :: rest.1) + _ * rest.2.toNat = _
      rw [toNat_toUInt32] at ih
      simp only [List.length_cons, toNat_cons, two_pow_words_succ, Nat.mul_assoc]
      generalize 2 ^ (32 * xs.length) * rest.2.toNat = overflow at ih ⊢
      omega

/-- A carry chain that goes on above the end of the second vector. -/
theorem toNat_addCarry_append_ripple {low b : Words} (high : Words)
    (h : low.length ≤ b.length) :
    toNat ((addCarry low b false).1 ++
        (ripple high (addCarry low b false).2.toUInt32).1) +
        2 ^ (32 * (low.length + high.length)) *
          (ripple high (addCarry low b false).2.toUInt32).2.toNat =
      toNat (low ++ high) + toNat b % 2 ^ (32 * low.length) := by
  have hsum := toNat_addCarry low b false
  rw [Nat.min_eq_left h, toNat_take, Bool.toNat_false, Nat.add_zero] at hsum
  have hlen := length_addCarry low b false
  generalize addCarry low b false = sum at hsum hlen ⊢
  have htop := toNat_ripple high sum.2.toUInt32
  rw [toNat_toUInt32] at htop
  generalize ripple high sum.2.toUInt32 = top at htop ⊢
  rw [toNat_list_append, toNat_list_append, hlen, Nat.mul_add, Nat.pow_add]
  calc
    toNat sum.1 + 2 ^ (32 * low.length) * toNat top.1 +
        2 ^ (32 * low.length) * 2 ^ (32 * high.length) * top.2.toNat =
        toNat sum.1 + 2 ^ (32 * low.length) *
          (toNat top.1 + 2 ^ (32 * high.length) * top.2.toNat) := by ring
    _ = toNat sum.1 + 2 ^ (32 * low.length) * sum.2.toNat +
          2 ^ (32 * low.length) * toNat high := by
      rw [htop]
      ring
    _ = toNat low + 2 ^ (32 * low.length) * toNat high + toNat b % 2 ^ (32 * low.length) := by
      rw [hsum]
      ring

theorem ripple_snd_of_lt {a : Words} {carry : UInt32}
    (h : toNat a + carry.toNat < 2 ^ (32 * a.length)) : (ripple a carry).2 = 0 := by
  have hvalue := toNat_ripple a carry
  rcases Nat.eq_zero_or_pos (ripple a carry).2.toNat with hzero | hpos
  · exact UInt32.toNat_inj.mp hzero
  · have := Nat.mul_le_mul_left (2 ^ (32 * a.length)) hpos
    omega

theorem toNat_ripple_of_lt {a : Words} {carry : UInt32}
    (h : toNat a + carry.toNat < 2 ^ (32 * a.length)) :
    toNat (ripple a carry).1 = toNat a + carry.toNat := by
  have hvalue := toNat_ripple a carry
  rwa [ripple_snd_of_lt h, UInt32.toNat_zero, Nat.mul_zero, Nat.add_zero] at hvalue

theorem drop_addCarry (a b : Words) (carry : Bool) :
    (addCarry a b carry).1.drop (min a.length b.length) = a.drop (min a.length b.length) := by
  fun_induction addCarry a b carry with
  | case1 x xs y ys carry step rest ih =>
      simp only [List.length_cons, Nat.add_min_add_right, List.drop_succ_cons]
      exact ih
  | case2 xs ys carry hnil => rfl

theorem drop_subBorrow (a b : Words) (borrow : Bool) :
    (subBorrow a b borrow).1.drop (min a.length b.length) = a.drop (min a.length b.length) := by
  fun_induction subBorrow a b borrow with
  | case1 x xs y ys borrow step rest ih =>
      simp only [List.length_cons, Nat.add_min_add_right, List.drop_succ_cons]
      exact ih
  | case2 xs ys borrow hnil => rfl

/-- The value equation of the words that a chain reaches: those above add the same to both sides. -/
theorem toNat_take_addCarry (a b : Words) (carry : Bool) :
    toNat ((addCarry a b carry).1.take (min a.length b.length)) +
        2 ^ (32 * min a.length b.length) * (addCarry a b carry).2.toNat =
      toNat (a.take (min a.length b.length)) + toNat (b.take (min a.length b.length)) +
        carry.toNat := by
  have hsum := toNat_addCarry a b carry
  rw [List.take_eq_take_min, ← toNat_take_add_drop a (min a.length b.length),
    ← toNat_take_add_drop (addCarry a b carry).1 (min a.length b.length), drop_addCarry] at hsum
  omega

theorem toNat_take_subBorrow (a b : Words) (borrow : Bool) :
    toNat ((subBorrow a b borrow).1.take (min a.length b.length)) +
        toNat (b.take (min a.length b.length)) + borrow.toNat =
      toNat (a.take (min a.length b.length)) +
        2 ^ (32 * min a.length b.length) * (subBorrow a b borrow).2.toNat := by
  have hdifference := toNat_subBorrow a b borrow
  rw [List.take_eq_take_min, ← toNat_take_add_drop a (min a.length b.length),
    ← toNat_take_add_drop (subBorrow a b borrow).1 (min a.length b.length),
    drop_subBorrow] at hdifference
  omega

theorem subBorrow_eq_true_iff (a b : Words) :
    (subBorrow a b false).2 = true ↔
      toNat (a.take (min a.length b.length)) < toNat (b.take (min a.length b.length)) := by
  have hdifference := toNat_take_subBorrow a b false
  have hlt := toNat_take_lt (subBorrow a b false).1 (min a.length b.length)
  cases hborrow : (subBorrow a b false).2 with
  | false =>
      rw [hborrow, Bool.toNat_false, Nat.mul_zero] at hdifference
      refine iff_of_false nofun ?_
      omega
  | true =>
      rw [hborrow, Bool.toNat_true, Bool.toNat_false, Nat.mul_one] at hdifference
      refine iff_of_true rfl ?_
      omega

/-- Both flags count how often the same sum passes the top of a word, so they agree. -/
theorem subWord_addWord (x y : UInt32) (carry : Bool) :
    subWord (addWord x y carry).1 y carry = (x, (addWord x y carry).2) := by
  have hsum := addWord_eq x y carry
  have hback := subWord_eq (addWord x y carry).1 y carry
  have hx := x.toNat_lt
  have hlt := (subWord (addWord x y carry).1 y carry).1.toNat_lt
  apply Prod.ext
  · apply UInt32.toNat_inj.mp
    change _ = x.toNat
    omega
  · change _ = (addWord x y carry).2
    rw [Bool.eq_iff_iff, ← Bool.toNat_eq_one, ← Bool.toNat_eq_one]
    omega

theorem subBorrow_addCarry (a b : Words) (carry : Bool) :
    subBorrow (addCarry a b carry).1 b carry = (a, (addCarry a b carry).2) := by
  fun_induction addCarry a b carry with
  | case1 x xs y ys carry step rest ih =>
      have hword : subWord step.1 y carry = (x, step.2) := subWord_addWord x y carry
      change subBorrow (step.1 :: rest.1) (y :: ys) carry = _
      rw [subBorrow, hword]
      change (x :: (subBorrow rest.1 ys step.2).1, (subBorrow rest.1 ys step.2).2) = _
      rw [ih]
  | case2 xs ys carry hnil =>
      rcases eq_nil_or_eq_nil hnil with rfl | rfl
      · cases ys <;> rfl
      · cases xs <;> rfl

/-- A chain of additions or subtractions is exact in the words that both vectors have: its flag
stands for the power of two above them and is set for a negative difference, and the words above
stay. A word carried into a vector is exact over the whole of it. Subtracting what was added gives
back the words and the flag. -/
theorem carry_chains_exact (a b : Words) :
    let shared := min a.length b.length
    let sum := addCarry a b false
    let difference := subBorrow a b false
    (sum.1.length = a.length ∧ sum.1.drop shared = a.drop shared ∧
      toNat (sum.1.take shared) + sum.2.toNat * 2 ^ (32 * shared) =
        toNat (a.take shared) + toNat (b.take shared)) ∧
    (difference.1.length = a.length ∧ difference.1.drop shared = a.drop shared ∧
      (toNat (difference.1.take shared) : Int) - difference.2.toNat * 2 ^ (32 * shared) =
        toNat (a.take shared) - toNat (b.take shared) ∧
      (difference.2.toNat = 1 ↔ (toNat (a.take shared) : Int) - toNat (b.take shared) < 0)) ∧
    (∀ v, (ripple a v).1.length = a.length ∧
      toNat (ripple a v).1 + (ripple a v).2.toNat * 2 ^ (32 * a.length) = toNat a + v.toNat) ∧
    subBorrow sum.1 b false = (a, sum.2) := by
  intro shared sum difference
  have hsum := toNat_take_addCarry a b false
  have hdifference := toNat_take_subBorrow a b false
  rw [Bool.toNat_false, Nat.add_zero, Nat.mul_comm] at hsum hdifference
  refine ⟨⟨length_addCarry a b false, drop_addCarry a b false, hsum⟩,
    ⟨length_subBorrow a b false, drop_subBorrow a b false, ?_, ?_⟩, ?_,
    subBorrow_addCarry a b false⟩
  · have hcast := congrArg (Nat.cast : Nat → Int) hdifference
    push_cast at hcast
    exact sub_eq_sub_iff_add_eq_add.mpr hcast
  · rw [Bool.toNat_eq_one, subBorrow_eq_true_iff, sub_neg, Int.ofNat_lt]
  · intro v
    refine ⟨length_ripple a v, ?_⟩
    rw [Nat.mul_comm]
    exact toNat_ripple a v

/-- The carry stays out of the word that only the first vector has. -/
example : addCarry [0xffffffff, 5] [1] false = ([0, 5], true) := by decide

end FermatMul.Words
