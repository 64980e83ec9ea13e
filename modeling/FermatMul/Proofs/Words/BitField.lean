import FermatMul.Proofs.Words.CarryChain

namespace FermatMul.Words

theorem shiftAmount_mod {shift : Nat} (h : shift < 32) :
    (UInt32.ofNat shift).toNat % 32 = shift := by
  rw [UInt32.toNat_ofNat_of_lt' (Nat.lt_trans h (by decide)), Nat.mod_eq_of_lt h]

theorem toNat_and_maskBelow (w : UInt32) (bits : Nat) :
    (w &&& maskBelow bits).toNat = w.toNat % 2 ^ bits := by
  rw [UInt32.toNat_and, maskBelow]
  split
  · next h =>
      have h32 : bits < 32 := h
      have hpow : 2 ^ bits < 2 ^ 32 := Nat.pow_lt_pow_right (by omega) h32
      have hpos : 0 < 2 ^ bits := Nat.two_pow_pos bits
      have hmask : ((1 : UInt32) <<< UInt32.ofNat bits - 1).toNat = 2 ^ bits - 1 := by
        have hshift : ((1 : UInt32) <<< UInt32.ofNat bits).toNat = 2 ^ bits := by
          rw [UInt32.toNat_shiftLeft, shiftAmount_mod h32, Nat.shiftLeft_eq, UInt32.toNat_one,
            Nat.one_mul, Nat.mod_eq_of_lt hpow]
        rw [UInt32.toNat_sub_of_le _ _ (by rw [UInt32.le_iff_toNat_le, hshift]; exact hpos),
          hshift, UInt32.toNat_one]
      rw [hmask, Nat.and_two_pow_sub_one_eq_mod]
  · next h =>
      have h32 : 32 ≤ bits := Nat.le_of_not_lt h
      have hw := w.toNat_lt
      have hlt : w.toNat < 2 ^ bits := Nat.lt_of_lt_of_le hw (Nat.pow_le_pow_right (by omega) h32)
      change w.toNat &&& (2 ^ 32 - 1) = _
      rw [Nat.and_two_pow_sub_one_eq_mod, Nat.mod_eq_of_lt hw, Nat.mod_eq_of_lt hlt]

theorem toNat_truncate (bits : Nat) (a : Words) :
    toNat (truncate bits a) = toNat a % 2 ^ bits := by
  induction a generalizing bits with
  | nil => simp [truncate]
  | cons w ws ih =>
      rw [truncate, toNat_cons, toNat_cons, toNat_and_maskBelow, ih]
      rcases le_or_gt 32 bits with h | h
      · obtain ⟨rest, rfl⟩ : ∃ rest, bits = 32 + rest := ⟨bits - 32, by omega⟩
        have hw := w.toNat_lt
        have hlow : w.toNat % 2 ^ (32 + rest) = w.toNat :=
          Nat.mod_eq_of_lt (Nat.lt_of_lt_of_le hw (Nat.pow_le_pow_right (by omega) h))
        rw [hlow, Limits.bitsPerWord, Nat.add_sub_cancel_left, Nat.pow_add, Nat.mod_mul,
          Nat.add_mul_mod_self_left, Nat.mod_eq_of_lt hw,
          Nat.add_mul_div_left _ _ (Nat.two_pow_pos 32), Nat.div_eq_of_lt hw, Nat.zero_add]
      · have hdvd : 2 ^ bits ∣ 2 ^ 32 * toNat ws :=
          Dvd.dvd.mul_right (Nat.pow_dvd_pow 2 (by omega)) _
        have hzero : bits - Limits.bitsPerWord = 0 := Nat.sub_eq_zero_of_le (by
          simp only [Limits.bitsPerWord]
          omega)
        rw [hzero, Nat.pow_zero, Nat.mod_one, Nat.mul_zero, Nat.add_zero,
          Nat.add_mod, Nat.mod_eq_zero_of_dvd hdvd, Nat.add_zero, Nat.mod_mod]

theorem toNat_spill {shift : Nat} (h : shift < 32) (w : UInt32) :
    (spill shift w).toNat = w.toNat / 2 ^ (32 - shift) := by
  rw [spill]
  split
  · next hzero =>
      rw [hzero]
      exact (Nat.div_eq_of_lt w.toNat_lt).symm
  · next hpos =>
      rw [Limits.bitsPerWord, UInt32.toNat_shiftRight, shiftAmount_mod (by omega),
        Nat.shiftRight_eq_div_pow]

theorem two_pow_split {shift : Nat} (h : shift ≤ 32) :
    2 ^ 32 = 2 ^ shift * 2 ^ (32 - shift) := by
  rw [← Nat.pow_add, Nat.add_sub_cancel' h]

/-- A word shifted left above the bits that its lower neighbour spills into it. -/
theorem toNat_shiftWord {shift : Nat} (h : shift < 32) (w below : UInt32) :
    (w <<< UInt32.ofNat shift ||| spill shift below).toNat +
        2 ^ 32 * (spill shift w).toNat =
      2 ^ shift * w.toNat + (spill shift below).toNat := by
  have hsplit : 2 ^ 32 = 2 ^ shift * 2 ^ (32 - shift) := two_pow_split (Nat.le_of_lt h)
  have hspill : (spill shift below).toNat < 2 ^ shift := by
    rw [toNat_spill h, Nat.div_lt_iff_lt_mul (Nat.two_pow_pos _), ← hsplit]
    exact below.toNat_lt
  have hshift : (w <<< UInt32.ofNat shift).toNat = 2 ^ shift * (w.toNat % 2 ^ (32 - shift)) := by
    rw [UInt32.toNat_shiftLeft, shiftAmount_mod h, Nat.shiftLeft_eq, Nat.mul_comm, hsplit,
      Nat.mul_mod_mul_left]
  rw [UInt32.toNat_or, hshift, ← Nat.two_pow_add_eq_or_of_lt hspill, toNat_spill h w]
  calc
    2 ^ shift * (w.toNat % 2 ^ (32 - shift)) + (spill shift below).toNat +
        2 ^ 32 * (w.toNat / 2 ^ (32 - shift)) =
        2 ^ shift * (w.toNat % 2 ^ (32 - shift) + 2 ^ (32 - shift) * (w.toNat / 2 ^ (32 - shift))) +
          (spill shift below).toNat := by rw [hsplit]; ring
    _ = 2 ^ shift * w.toNat + (spill shift below).toNat := by rw [Nat.mod_add_div]

theorem toNat_shiftFrom {shift : Nat} (h : shift < 32) (below : UInt32) (a : Words) :
    toNat (shiftFrom shift below a) +
        2 ^ (32 * a.length) * (spill shift (a.getLastD below)).toNat =
      2 ^ shift * toNat a + (spill shift below).toNat := by
  induction a generalizing below with
  | nil => simp [shiftFrom]
  | cons w ws ih =>
      have hword := toNat_shiftWord h w below
      have hrest := ih w
      rw [shiftFrom, toNat_cons, List.length_cons, List.getLastD_cons, two_pow_words_succ,
        toNat_cons, Nat.mul_assoc, Nat.add_assoc, ← Nat.mul_add, hrest]
      calc
        (w <<< UInt32.ofNat shift ||| spill shift below).toNat +
            2 ^ 32 * (2 ^ shift * toNat ws + (spill shift w).toNat) =
            (w <<< UInt32.ofNat shift ||| spill shift below).toNat +
              2 ^ 32 * (spill shift w).toNat + 2 ^ 32 * (2 ^ shift * toNat ws) := by ring
        _ = 2 ^ shift * (w.toNat + 2 ^ 32 * toNat ws) + (spill shift below).toNat := by
          rw [hword]
          ring

/-- The word that starts inside a number, from the two words it covers. -/
theorem shifted_word {shift : Nat} (h : shift ≤ 32) (value : Nat) :
    value / 2 ^ shift % 2 ^ 32 =
      value % 2 ^ 32 / 2 ^ shift + 2 ^ (32 - shift) * (value / 2 ^ 32 % 2 ^ shift) := by
  have hsplit := two_pow_split h
  have hmod : value / 2 ^ shift % 2 ^ 32 = value / 2 ^ shift % 2 ^ (32 - shift) +
      2 ^ (32 - shift) * (value / 2 ^ shift / 2 ^ (32 - shift) % 2 ^ shift) := by
    rw [← Nat.mod_mul, Nat.mul_comm, ← hsplit]
  rw [hmod, Nat.div_div_eq_div_mul, ← hsplit, hsplit, Nat.mod_mul_right_div_self]

theorem toNat_window (a : Words) (position : Nat) :
    (window a position).toNat = toNat a / 2 ^ position % 2 ^ 32 := by
  let shift := position % 32
  let above := toNat a / 2 ^ (32 * (position / 32))
  have hshift : shift < 32 := Nat.mod_lt _ (by omega)
  have hposition : 32 * (position / 32) + shift = position := Nat.div_add_mod position 32
  have hlow : (wordAt a (position / 32) >>> UInt32.ofNat shift).toNat =
      above % 2 ^ 32 / 2 ^ shift := by
    rw [UInt32.toNat_shiftRight, shiftAmount_mod hshift, toNat_wordAt, Nat.shiftRight_eq_div_pow]
  have hsplit : 2 ^ 32 = 2 ^ shift * 2 ^ (32 - shift) := two_pow_split (Nat.le_of_lt hshift)
  have htarget : toNat a / 2 ^ position % 2 ^ 32 = above / 2 ^ shift % 2 ^ 32 := by
    rw [Nat.div_div_eq_div_mul, ← Nat.pow_add, hposition]
  have hwindow : window a position =
      if shift = 0 then wordAt a (position / 32) >>> UInt32.ofNat shift
      else wordAt a (position / 32) >>> UInt32.ofNat shift |||
        wordAt a (position / 32 + 1) <<< UInt32.ofNat (32 - shift) := rfl
  rw [hwindow, htarget]
  split
  · next hzero => rw [hlow, hzero, Nat.pow_zero, Nat.div_one, Nat.div_one]
  · next hpos =>
      -- The next word fills the window from bit `32 - shift` on.
      have hnext : (wordAt a (position / 32 + 1)).toNat = above / 2 ^ 32 % 2 ^ 32 := by
        rw [toNat_wordAt, Nat.mul_succ, Nat.pow_add, ← Nat.div_div_eq_div_mul]
      have hhigh : (wordAt a (position / 32 + 1) <<< UInt32.ofNat (32 - shift)).toNat =
          2 ^ (32 - shift) * (above / 2 ^ 32 % 2 ^ shift) := by
        rw [UInt32.toNat_shiftLeft, shiftAmount_mod (by omega), Nat.shiftLeft_eq, hnext,
          Nat.mul_comm, hsplit, Nat.mul_comm (2 ^ shift), Nat.mul_mod_mul_left,
          Nat.mod_mul_left_mod]
      have hlowLt : above % 2 ^ 32 / 2 ^ shift < 2 ^ (32 - shift) := by
        rw [Nat.div_lt_iff_lt_mul (Nat.two_pow_pos _), Nat.mul_comm, ← hsplit]
        exact Nat.mod_lt _ (Nat.two_pow_pos 32)
      rw [UInt32.toNat_or, hlow, hhigh, Nat.or_comm, ← Nat.two_pow_add_eq_or_of_lt hlowLt,
        Nat.add_comm, shifted_word (Nat.le_of_lt hshift)]

theorem toNat_windows (a : Words) (offset count : Nat) :
    toNat ((List.range count).map fun k => window a (offset + 32 * k)) =
      toNat a / 2 ^ offset % 2 ^ (32 * count) := by
  induction count with
  | zero => simp [Nat.mod_one]
  | succ count ih =>
      rw [List.range_succ, List.map_append, toNat_list_append, ih, List.length_map,
        List.length_range, List.map_singleton, toNat_cons, toNat_nil, Nat.mul_zero, Nat.add_zero,
        toNat_window, Nat.pow_add, ← Nat.div_div_eq_div_mul, Nat.mul_succ, Nat.pow_add,
        Nat.mod_mul]

theorem toNat_extract (a : Words) (offset bits : Nat) :
    toNat (extract a offset bits) = toNat a / 2 ^ offset % 2 ^ bits := by
  have hbits : bits ≤ 32 * wordsFor bits := wordsFor_le_iff.mp (Nat.le_refl _)
  rw [extract, toNat_truncate, Limits.bitsPerWord, toNat_windows,
    Nat.mod_mod_of_dvd _ (Nat.pow_dvd_pow 2 hbits)]

theorem word_or_word {w v x y : Nat} (hw : w < 2 ^ 32) (hv : v < 2 ^ 32) :
    (w + 2 ^ 32 * x) ||| (v + 2 ^ 32 * y) = (w ||| v) + 2 ^ 32 * (x ||| y) := by
  have hor : w ||| v < 2 ^ 32 := Nat.or_lt_two_pow hw hv
  apply Nat.eq_of_testBit_eq
  intro i
  rw [Nat.testBit_or, Nat.add_comm w, Nat.add_comm v, Nat.add_comm (w ||| v),
    Nat.testBit_two_pow_mul_add _ hw, Nat.testBit_two_pow_mul_add _ hv,
    Nat.testBit_two_pow_mul_add _ hor]
  split <;> rw [Nat.testBit_or]

theorem toNat_union {a b : Words} (h : toNat b < 2 ^ (32 * a.length)) :
    toNat (union a b) = toNat a ||| toNat b := by
  fun_induction union a b with
  | case1 b =>
      rw [List.length_nil, Nat.mul_zero, Nat.pow_zero, Nat.lt_one_iff] at h
      rw [h]
      rfl
  | case2 as hne => simp
  | case3 x xs y ys ih =>
      rw [toNat_cons, List.length_cons, two_pow_words_succ] at h
      rw [toNat_cons, toNat_cons, toNat_cons, ih (by omega), UInt32.toNat_or,
        word_or_word x.toNat_lt y.toNat_lt]

theorem toNat_append (a : Words) (offset : Nat) (source : Words) (bits : Nat) :
    toNat (append a offset source bits) =
      toNat a ||| 2 ^ offset * (toNat source % 2 ^ bits) := by
  let field := extract source 0 bits
  have hfield : toNat field = toNat source % 2 ^ bits := by
    rw [toNat_extract, Nat.pow_zero, Nat.div_one]
  have hshift : offset % 32 < 32 := Nat.mod_lt _ (by omega)
  have hvalue : toNat (shiftFrom (offset % 32) 0 (field ++ [0])) =
      2 ^ (offset % 32) * toNat field := by
    have h := toNat_shiftFrom hshift 0 (field ++ [0])
    rw [List.getLastD_concat, toNat_spill hshift, toNat_list_append] at h
    simpa using h
  have hplaced : toNat (zeros (offset / 32) ++ shiftFrom (offset % 32) 0 (field ++ [0])) =
      2 ^ offset * (toNat source % 2 ^ bits) := by
    rw [toNat_list_append, toNat_zeros, Nat.zero_add, length_zeros, hvalue, ← Nat.mul_assoc,
      ← Nat.pow_add, Nat.div_add_mod, hfield]
  have hlt : 2 ^ offset * (toNat source % 2 ^ bits) <
      2 ^ (32 * (padTo (wordsFor (offset + bits)) a).length) := by
    have hfits : offset + bits ≤ 32 * (padTo (wordsFor (offset + bits)) a).length := by
      rw [← wordsFor_le_iff, length_padTo]
      exact Nat.le_max_right ..
    calc
      2 ^ offset * (toNat source % 2 ^ bits) < 2 ^ offset * 2 ^ bits :=
        Nat.mul_lt_mul_of_pos_left (Nat.mod_lt _ (Nat.two_pow_pos _)) (Nat.two_pow_pos _)
      _ = 2 ^ (offset + bits) := (Nat.pow_add ..).symm
      _ ≤ _ := Nat.pow_le_pow_right (by omega) hfits
  change toNat (union (padTo (wordsFor (offset + bits)) a)
    (zeros (offset / 32) ++ shiftFrom (offset % 32) 0 (field ++ [0]))) = _
  rw [toNat_union (hplaced ▸ hlt), hplaced, toNat_padTo]

end FermatMul.Words
