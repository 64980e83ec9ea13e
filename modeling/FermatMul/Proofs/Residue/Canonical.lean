import Mathlib.Tactic.Linarith
import FermatMul.Proofs.Residue.Congruence
import FermatMul.Proofs.Words.Placement

namespace FermatMul.Residue

open FermatMul.Words

variable {half : Nat} {a b product : Words}

theorem subBorrow_halves (ha : a.length = 2 * half) :
    (subBorrow (a.take half) (a.drop half) false).1.length = half ∧
      toNat (subBorrow (a.take half) (a.drop half) false).1 + toNat (a.drop half) =
        toNat (a.take half) +
          2 ^ (32 * half) * (subBorrow (a.take half) (a.drop half) false).2.toNat := by
  have htake : (a.take half).length = half := by
    rw [List.length_take]
    omega
  have hdrop : (a.drop half).length = half := by
    rw [List.length_drop]
    omega
  have hwhole : (a.drop half).take (a.take half).length = a.drop half :=
    List.take_of_length_le (by omega)
  have h := toNat_subBorrow (a.take half) (a.drop half) false
  rw [hwhole, htake, hdrop, Nat.min_self, Bool.toNat_false, Nat.add_zero] at h
  exact ⟨by rw [length_subBorrow, htake], h⟩

/-- A number modulo `size + 1` from the difference of its two digits and the borrow. -/
theorem mod_succ_of_borrow {size low high bottom : Nat} {borrow : Bool} (hlow : low < size)
    (h : low + high = bottom + size * borrow.toNat) :
    (bottom + size * high) % (size + 1) = low + borrow.toNat := by
  cases borrow with
  | false =>
      rw [Bool.toNat_false, Nat.mul_zero, Nat.add_zero] at h
      have hsplit : bottom + size * high = low + (size + 1) * high := by
        rw [← h]
        ring
      rw [hsplit, Nat.add_mul_mod_self_left, Nat.mod_eq_of_lt (by omega)]
      rfl
  | true =>
      -- The high digit is not zero here, and one multiple of the modulus less than it is taken off.
      rw [Bool.toNat_true, Nat.mul_one] at h
      obtain ⟨rest, rfl⟩ : ∃ rest, high = rest + 1 := ⟨high - 1, by omega⟩
      have hsplit : bottom + size * (rest + 1) = low + 1 + (size + 1) * rest := by
        calc
          bottom + size * (rest + 1) = bottom + size + size * rest := by ring
          _ = low + 1 + (size + 1) * rest := by
            rw [← h]
            ring
      rw [hsplit, Nat.add_mul_mod_self_left, Nat.mod_eq_of_lt (by omega)]
      rfl

/-- Folding gives the least number that stands for the residue. -/
theorem toNat_fold (ha : a.length = 2 * half) :
    toNat (fold a) = toNat a % (2 ^ (32 * half) + 1) := by
  obtain ⟨hlen, hvalue⟩ := subBorrow_halves ha
  generalize hlow : subBorrow (a.take half) (a.drop half) false = low at hlen hvalue
  have hlt : toNat low.1 < 2 ^ (32 * half) := by
    have h := toNat_lt low.1
    rwa [hlen] at h
  have hpad : toNat (low.1 ++ zeros (a.length - half)) = toNat low.1 := by
    rw [toNat_list_append, toNat_zeros, Nat.mul_zero, Nat.add_zero]
  have hwhole : (low.1 ++ zeros (a.length - half)).length = half + half := by
    rw [List.length_append, hlen, length_zeros]
    omega
  have hfold : toNat (fold a) = toNat low.1 + low.2.toNat := by
    simp only [fold, half_eq ha, hlow]
    cases hborrow : low.2 with
    | false => exact hpad
    | true =>
        have hhigh : toNat (a.drop half) < 2 ^ (32 * half) := by
          have h := toNat_lt (a.drop half)
          rwa [List.length_drop, ha, Nat.two_mul, Nat.add_sub_cancel] at h
        have htwo : 2 ^ (32 * half) * 2 ≤ 2 ^ (32 * half) * 2 ^ (32 * half) := by
          rw [hborrow, Bool.toNat_true] at hvalue
          exact Nat.mul_le_mul_left _ (by omega)
        have hfits : toNat (low.1 ++ zeros (a.length - half)) + (1 : UInt32).toNat <
            2 ^ (32 * (low.1 ++ zeros (a.length - half)).length) := by
          rw [hpad, hwhole, Nat.mul_add, Nat.pow_add, UInt32.toNat_one]
          omega
        change toNat (ripple (low.1 ++ zeros (a.length - half)) 1).1 = _
        rw [toNat_ripple_of_lt hfits, hpad]
        rfl
  rw [hfold, ← toNat_take_add_drop a half]
  exact (mod_succ_of_borrow hlt hvalue).symm

theorem residue_fold (ha : a.length = 2 * half) : residue half (fold a) = residue half a := by
  rw [residue, toNat_fold ha, ZMod.natCast_mod]
  rfl

theorem toNat_fold_eq_iff (ha : a.length = 2 * half) (hb : b.length = 2 * half) :
    toNat (fold a) = toNat (fold b) ↔ residue half a = residue half b := by
  rw [toNat_fold ha, toNat_fold hb]
  exact (ZMod.natCast_eq_natCast_iff' _ _ _).symm

theorem fold_eq_fold_iff (ha : a.length = 2 * half) (hb : b.length = 2 * half) :
    fold a = fold b ↔ residue half a = residue half b := by
  rw [← toNat_fold_eq_iff ha hb]
  refine ⟨congrArg toNat, fun h => eq_of_toNat_eq ?_ h⟩
  rw [length_fold, length_fold, ha, hb]

/-- A vector of two halves that is the least number for its residue. -/
structure Canonical (half : Nat) (a : Words) : Prop where
  length_eq : a.length = 2 * half
  toNat_le : toNat a ≤ 2 ^ (32 * half)

theorem canonical_fold (ha : a.length = 2 * half) : Canonical half (fold a) where
  length_eq := by rw [length_fold, ha]
  toNat_le := by
    rw [toNat_fold ha]
    exact Nat.le_of_lt_succ (Nat.mod_lt _ (Nat.succ_pos _))

theorem fold_eq_self (h : Canonical half a) : fold a = a := by
  apply eq_of_toNat_eq (length_fold a)
  rw [toNat_fold h.length_eq]
  exact Nat.mod_eq_of_lt (Nat.lt_succ_of_le h.toNat_le)

theorem fold_fold (ha : a.length = 2 * half) : fold (fold a) = fold a :=
  fold_eq_self (canonical_fold ha)

/-- A canonical vector is the remainder of every integer that stands for its residue. -/
theorem Canonical.toNat_eq_emod (h : Canonical half a) {v : Int}
    (hv : residue half a = (v : FermatRing half)) :
    (toNat a : Int) = v % (2 ^ (32 * half) + 1) := by
  have hlt : (toNat a : Int) < 2 ^ (32 * half) + 1 := by
    exact_mod_cast Nat.lt_succ_of_le h.toNat_le
  have hmod : ((toNat a : Int) : FermatRing half) = (v : FermatRing half) := by
    rw [← hv, Int.cast_natCast]
    rfl
  have hrem := (ZMod.intCast_eq_intCast_iff' _ _ _).mp hmod
  push_cast at hrem
  rw [← hrem]
  exact (Int.emod_eq_of_lt (Int.natCast_nonneg _) hlt).symm

theorem toNat_fold_eq_emod (ha : a.length = 2 * half) :
    (toNat (fold a) : Int) = value a % (2 ^ (32 * half) + 1) :=
  (canonical_fold ha).toNat_eq_emod ((residue_fold ha).trans (residue_eq_value ha))

theorem fold_eq_fold_iff_modEq (ha : a.length = 2 * half) (hb : b.length = 2 * half) :
    fold a = fold b ↔ value a ≡ value b [ZMOD 2 ^ (32 * half) + 1] := by
  rw [fold_eq_fold_iff ha hb, residue_eq_value ha, residue_eq_value hb, intCast_eq_iff]

theorem fold_eq_self_iff (ha : a.length = 2 * half) : fold a = a ↔ toNat a ≤ 2 ^ (32 * half) := by
  constructor
  · intro h
    rw [← h]
    exact (canonical_fold ha).toNat_le
  · intro h
    exact fold_eq_self ⟨ha, h⟩

/-- Of the canonical vectors only that of minus one has a word in its high half. -/
theorem isMinusOne_iff (h : Canonical half a) :
    isMinusOne a = true ↔ toNat a = 2 ^ (32 * half) := by
  have hle := h.toNat_le
  have hlt := toNat_lt a
  rw [h.length_eq] at hlt
  rw [isMinusOne, half_eq h.length_eq, beq_iff_eq, ← UInt32.toNat_inj, toNat_wordAt,
    UInt32.toNat_one]
  constructor
  · intro hword
    have hdiv : toNat a / 2 ^ (32 * half) ≠ 0 := by
      intro hzero
      simp [hzero] at hword
    have := Nat.div_ne_zero_iff.mp hdiv
    omega
  · intro htop
    rw [htop, Nat.div_self (Nat.two_pow_pos _)]
    rfl

theorem isMinusOne_fold_iff (ha : a.length = 2 * half) :
    isMinusOne (fold a) = true ↔ value a % (2 ^ (32 * half) + 1) = 2 ^ (32 * half) := by
  rw [isMinusOne_iff (canonical_fold ha), ← toNat_fold_eq_emod ha]
  norm_cast

theorem toNat_take_half_of_isMinusOne (h : Canonical half a) (htop : isMinusOne a = true) :
    toNat (a.take half) = 0 := by
  rw [toNat_take, (isMinusOne_iff h).mp htop, Nat.mod_self]

theorem toNat_take_half (h : Canonical half a) (htop : isMinusOne a = false) :
    toNat (a.take half) = toNat a := by
  have hne : toNat a ≠ 2 ^ (32 * half) := fun heq => by
    simp [(isMinusOne_iff h).mpr heq] at htop
  have hle := h.toNat_le
  rw [toNat_take, Nat.mod_eq_of_lt (by omega)]

theorem residue_of_isMinusOne (h : Canonical half a) (htop : isMinusOne a = true) :
    residue half a = -1 := by
  rw [residue, (isMinusOne_iff h).mp htop]
  push_cast
  exact two_pow_half half

theorem toNat_addAt_half (hproduct : product.length = 2 * half) (hzero : toNat product = 0)
    (hb : Canonical half b) (htop : isMinusOne b = false) :
    toNat (addAt product (b.take half) half) = 2 ^ (32 * half) * toNat b := by
  have hfits : 2 ^ (32 * half) * toNat (b.take half) < 2 ^ (32 * product.length) := by
    rw [hproduct, Nat.two_mul, Nat.mul_add, Nat.pow_add]
    exact Nat.mul_lt_mul_of_pos_left (toNat_take_lt b half) (Nat.two_pow_pos _)
  rw [toNat_addAt, hzero, Nat.zero_add, Nat.mod_eq_of_lt hfits, toNat_take_half hb htop]

/-- The product of the low halves is completed to that of the canonical numbers, and minus one times
itself to one. -/
theorem toNat_foldSigns (ha : Canonical half a) (hb : Canonical half b)
    (hlen : product.length = 2 * half)
    (hproduct : toNat product = toNat (a.take half) * toNat (b.take half)) :
    toNat (foldSigns a b product) =
      if isMinusOne a && isMinusOne b then 1 else toNat a * toNat b := by
  rw [foldSigns, half_eq ha.length_eq]
  cases hatop : isMinusOne a <;> cases hbtop : isMinusOne b
  case false.false =>
    change toNat product = toNat a * toNat b
    rw [hproduct, toNat_take_half ha hatop, toNat_take_half hb hbtop]
  case false.true =>
    rw [toNat_take_half_of_isMinusOne hb hbtop, Nat.mul_zero] at hproduct
    change toNat (addAt product (a.take half) half) = toNat a * toNat b
    rw [toNat_addAt_half hlen hproduct ha hatop, (isMinusOne_iff hb).mp hbtop, Nat.mul_comm]
  case true.false =>
    rw [toNat_take_half_of_isMinusOne ha hatop, Nat.zero_mul] at hproduct
    change toNat (addAt product (b.take half) half) = toNat a * toNat b
    rw [toNat_addAt_half hlen hproduct hb hbtop, (isMinusOne_iff ha).mp hatop]
  case true.true =>
    rw [toNat_take_half_of_isMinusOne ha hatop, Nat.zero_mul] at hproduct
    have hpos : half ≠ 0 := by
      rintro rfl
      have hempty : a = [] := List.eq_nil_of_length_eq_zero ha.length_eq
      simp [hempty, isMinusOne, wordAt] at hatop
    obtain ⟨rest, hrest⟩ : ∃ rest, 2 * half = rest + 1 := ⟨2 * half - 1, by omega⟩
    change toNat (product.set 0 1) = 1
    rw [eq_zeros_of_toNat_eq_zero hproduct, hlen, hrest, toNat_set_zeros]

/-- The product of the low halves of two canonical vectors is completed to that of the residues. -/
theorem residue_foldSigns (ha : Canonical half a) (hb : Canonical half b)
    (hlen : product.length = 2 * half)
    (hproduct : toNat product = toNat (a.take half) * toNat (b.take half)) :
    residue half (foldSigns a b product) = residue half a * residue half b := by
  rw [residue, toNat_foldSigns ha hb hlen hproduct]
  split
  case isTrue hboth =>
    obtain ⟨hatop, hbtop⟩ := Bool.and_eq_true_iff.mp hboth
    rw [residue_of_isMinusOne ha hatop, residue_of_isMinusOne hb hbtop]
    push_cast
    ring
  case isFalse =>
    push_cast
    rfl

theorem toNat_take_modEq {bits k : Nat} (h : bits ≤ 32 * k) (a : Words) :
    (toNat (a.take k) : Int) ≡ toNat a [ZMOD 2 ^ bits] := by
  rw [toNat_take]
  push_cast
  exact (Int.mod_modEq _ _).of_dvd (pow_dvd_pow 2 h)

theorem toNat_subLow {bits : Nat} (ha : wordsFor bits ≤ a.length) (hb : wordsFor bits ≤ b.length) :
    (toNat (subLow a b bits) : Int) = ((toNat a : Int) - toNat b) % 2 ^ bits := by
  let low := subBorrow a b false
  have hlow : (toNat low.1 : Int) = toNat a - toNat (b.take a.length) +
      2 ^ (32 * min a.length b.length) * (low.2.toNat : Int) := by
    have h := toNat_subBorrow a b false
    rw [Bool.toNat_false, Nat.add_zero] at h
    have hcast : (toNat low.1 : Int) + toNat (b.take a.length) =
        toNat a + 2 ^ (32 * min a.length b.length) * (low.2.toNat : Int) := by
      exact_mod_cast h
    linarith
  have hborrow : 2 ^ (32 * min a.length b.length) * (low.2.toNat : Int) ≡ 0 [ZMOD 2 ^ bits] := by
    have hbits : bits ≤ 32 * min a.length b.length :=
      wordsFor_le_iff.mp (Nat.le_min.mpr ⟨ha, hb⟩)
    exact Int.modEq_zero_iff_dvd.mpr (Dvd.dvd.mul_right (pow_dvd_pow 2 hbits) _)
  have hcut := toNat_take_modEq (wordsFor_le_iff.mp ha) b
  rw [subLow, toNat_truncate]
  push_cast
  change (toNat low.1 : Int) % 2 ^ bits = _
  rw [hlow, ← Int.add_zero ((toNat a : Int) - toNat b)]
  exact (hcut.sub_left _).add hborrow

end FermatMul.Residue
