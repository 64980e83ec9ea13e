import Mathlib.Tactic.Ring
import FermatMul.Words.Field

namespace FermatMul.Words

theorem two_pow_words_succ (k : Nat) : 2 ^ (32 * (k + 1)) = 2 ^ 32 * 2 ^ (32 * k) := by
  rw [Nat.mul_succ, Nat.pow_add, Nat.mul_comm]

theorem toNat_lt (a : Words) : toNat a < 2 ^ (32 * a.length) := by
  induction a with
  | nil => simp
  | cons w ws ih =>
      have hw := w.toNat_lt
      rw [toNat_cons, List.length_cons, two_pow_words_succ]
      omega

theorem toNat_list_append (a b : Words) :
    toNat (a ++ b) = toNat a + 2 ^ (32 * a.length) * toNat b := by
  induction a with
  | nil => simp
  | cons w ws ih =>
      rw [List.cons_append, toNat_cons, toNat_cons, ih, List.length_cons, two_pow_words_succ]
      ring

theorem toNat_take_add_drop (a : Words) (k : Nat) :
    toNat (a.take k) + 2 ^ (32 * k) * toNat (a.drop k) = toNat a := by
  rcases Nat.le_total k a.length with hk | hk
  · have happend := toNat_list_append (a.take k) (a.drop k)
    rw [List.take_append_drop, List.length_take, Nat.min_eq_left hk] at happend
    exact happend.symm
  · rw [List.take_of_length_le hk, List.drop_of_length_le hk]
    simp

theorem toNat_take_lt (a : Words) (k : Nat) : toNat (a.take k) < 2 ^ (32 * k) := by
  refine Nat.lt_of_lt_of_le (toNat_lt _) (Nat.pow_le_pow_right (by omega) ?_)
  exact Nat.mul_le_mul_left 32 (List.length_take_le k a)

theorem toNat_take (a : Words) (k : Nat) : toNat (a.take k) = toNat a % 2 ^ (32 * k) := by
  rw [← toNat_take_add_drop a k, Nat.add_mul_mod_self_left, Nat.mod_eq_of_lt (toNat_take_lt a k)]

theorem toNat_drop (a : Words) (k : Nat) : toNat (a.drop k) = toNat a / 2 ^ (32 * k) := by
  rw [← toNat_take_add_drop a k, Nat.add_mul_div_left _ _ (Nat.two_pow_pos _),
    Nat.div_eq_of_lt (toNat_take_lt a k), Nat.zero_add]

theorem toNat_drop_lt {a : Words} {k count : Nat} (h : toNat a < 2 ^ (32 * (k + count))) :
    toNat (a.drop k) < 2 ^ (32 * count) := by
  rw [toNat_drop]
  apply Nat.div_lt_of_lt_mul
  rwa [← Nat.pow_add, ← Nat.mul_add]

theorem eq_of_toNat_eq {a b : Words} (hlen : a.length = b.length) (h : toNat a = toNat b) :
    a = b := by
  induction a generalizing b with
  | nil => exact (List.eq_nil_of_length_eq_zero hlen.symm).symm
  | cons w ws ih =>
      cases b with
      | nil => simp at hlen
      | cons v vs =>
          simp only [toNat_cons, List.length_cons, Nat.add_right_cancel_iff] at h hlen
          have hw := w.toNat_lt
          have hv := v.toNat_lt
          have hhead : w = v := UInt32.toNat_inj.mp (by omega)
          have htail : ws = vs := ih hlen (by omega)
          rw [hhead, htail]

theorem exists_toNat_eq {len v : Nat} (h : v < 2 ^ (32 * len)) :
    ∃ a : Words, a.length = len ∧ toNat a = v := by
  induction len generalizing v with
  | zero => exact ⟨[], rfl, (Nat.lt_one_iff.mp h).symm⟩
  | succ len ih =>
      rw [two_pow_words_succ] at h
      obtain ⟨ws, hlen, hvalue⟩ := ih (Nat.div_lt_of_lt_mul h)
      refine ⟨UInt32.ofNat v :: ws, by rw [List.length_cons, hlen], ?_⟩
      rw [toNat_cons, hvalue, UInt32.toNat_ofNat']
      exact Nat.mod_add_div v _

@[simp] theorem toNat_padTo (n : Nat) (a : Words) : toNat (padTo n a) = toNat a := by
  simp [padTo, toNat_list_append]

theorem toNat_wordAt (a : Words) (i : Nat) :
    (wordAt a i).toNat = toNat a / 2 ^ (32 * i) % 2 ^ 32 := by
  rw [← toNat_drop]
  rcases Nat.lt_or_ge i a.length with hi | hi
  · have hw := (a[i]).toNat_lt
    rw [wordAt, List.getElem?_eq_getElem hi, Option.getD_some, List.drop_eq_getElem_cons hi,
      toNat_cons, Nat.add_mul_mod_self_left, Nat.mod_eq_of_lt hw]
  · rw [wordAt, List.getElem?_eq_none hi, List.drop_of_length_le hi]
    rfl

theorem toNat_take_succ (a : Words) (k : Nat) :
    toNat (a.take (k + 1)) = toNat (a.take k) + 2 ^ (32 * k) * (wordAt a k).toNat := by
  rw [toNat_take, toNat_take, toNat_wordAt, Nat.mul_succ, Nat.pow_add, Nat.mod_mul]

theorem wordAt_of_lt {a : Words} {i : Nat} (h : i < a.length) : wordAt a i = a[i] := by
  rw [wordAt, List.getElem?_eq_getElem h, Option.getD_some]

theorem wordAt_append_right {a : Words} {i : Nat} (h : a.length = i) (b : Words) (j : Nat) :
    wordAt (a ++ b) (i + j) = wordAt b j := by
  rw [wordAt, wordAt, List.getElem?_append_right (by omega), h, Nat.add_sub_cancel_left]

theorem wordAt_eq_zero {a : Words} {i j : Nat} (h : toNat a < 2 ^ (32 * i)) (hj : i ≤ j) :
    wordAt a j = 0 := by
  have hlt : toNat a < 2 ^ (32 * j) :=
    Nat.lt_of_lt_of_le h (Nat.pow_le_pow_right (by omega) (by omega))
  rw [← UInt32.toNat_inj, toNat_wordAt, Nat.div_eq_of_lt hlt]
  rfl

theorem binaryLength_word_add {w t : Nat} (hw : w < 2 ^ 32) (ht : t ≠ 0) :
    binaryLength (w + 2 ^ 32 * t) = 32 + binaryLength t := by
  have hpos : binaryLength t ≠ 0 := fun h => ht (binaryLength_eq_zero_iff.mp h)
  apply Nat.le_antisymm
  · have hlt := lt_two_pow_binaryLength t
    rw [binaryLength_le_iff, Nat.pow_add]
    omega
  · have hge : 2 ^ (binaryLength t - 1) ≤ t := lt_binaryLength_iff.mp (by omega)
    have hlow : 2 ^ (32 + (binaryLength t - 1)) ≤ w + 2 ^ 32 * t := by
      rw [Nat.pow_add]
      omega
    have := lt_binaryLength_iff.mpr hlow
    omega

theorem significantBits_eq (a : Words) : significantBits a = binaryLength (toNat a) := by
  induction a with
  | nil => rfl
  | cons w ws ih =>
      rw [significantBits, toNat_cons, ih]
      split
      · next h => rw [binaryLength_eq_zero_iff.mp h, Nat.mul_zero, Nat.add_zero]
      · next h =>
          have hne := mt binaryLength_eq_zero_iff.mpr h
          exact (binaryLength_word_add w.toNat_lt hne).symm

theorem toNat_lt_two_pow_significantBits (a : Words) : toNat a < 2 ^ significantBits a := by
  rw [significantBits_eq]
  exact lt_two_pow_binaryLength _

theorem significantBits_eq_zero_iff {a : Words} : significantBits a = 0 ↔ toNat a = 0 := by
  rw [significantBits_eq, binaryLength_eq_zero_iff]

@[simp] theorem toNat_trim (a : Words) : toNat (trim a) = toNat a := by
  have hbits : significantBits a ≤ 32 * wordsFor (significantBits a) :=
    wordsFor_le_iff.mp (Nat.le_refl _)
  rw [trim, toNat_take]
  apply Nat.mod_eq_of_lt
  exact Nat.lt_of_lt_of_le (toNat_lt_two_pow_significantBits a)
    (Nat.pow_le_pow_right (by omega) hbits)

/-- The product of two vectors fits into as many words as both together. -/
theorem toNat_trim_mul_lt (a b : Words) :
    toNat (trim a) * toNat (trim b) < 2 ^ (32 * (a.length + b.length)) := by
  rw [toNat_trim, toNat_trim, Nat.mul_add, Nat.pow_add]
  exact Nat.mul_lt_mul'' (toNat_lt a) (toNat_lt b)

theorem toNat_set_zeros (n : Nat) : toNat ((zeros (n + 1)).set 0 1) = 1 := by
  rw [zeros, List.replicate_succ, List.set_cons_zero, toNat_cons, ← zeros, toNat_zeros]
  rfl

theorem eq_zeros_of_toNat_eq_zero {a : Words} (h : toNat a = 0) : a = zeros a.length :=
  eq_of_toNat_eq (by simp) (by simp [h])

theorem eq_zeros_iff {a : Words} {len : Nat} (ha : a.length = len) :
    a = zeros len ↔ toNat a = 0 := by
  constructor
  · rintro rfl
    exact toNat_zeros len
  · intro h
    rw [eq_zeros_of_toNat_eq_zero h, ha]

end FermatMul.Words
