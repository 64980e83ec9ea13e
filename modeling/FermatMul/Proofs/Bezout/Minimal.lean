import Mathlib.Algebra.Group.Int.Units
import Mathlib.Tactic.LinearCombination
import FermatMul.Proofs.Bezout.Width

/-!
Of all representations of the greatest common divisor the algorithm finds one with the least
coefficients. The signs of the operands only pass into those of the coefficients: the rows for two
operands and the rows for their absolute values differ row by row in three signs.
-/

namespace FermatMul.Bezout

variable {a b : Int} {u v row : Bezout} {w : IntWidth}

section Signs

variable {s t σ τ : Int}

/-- A row whose remainder has the sign `σ`, of operands with the signs `s` and `t`. -/
def signed (s t σ : Int) (u : Bezout) : Bezout :=
  { x := σ * (s * u.x), y := σ * (t * u.y), gcd := σ * u.gcd }

/-- The sign of a quotient is lost where the row below it is multiplied by the quotient. -/
theorem quotient_signed (hσ : IsUnit σ) (hτ : IsUnit τ) (s t : Int) (u v : Bezout) :
    quotient (signed s t σ u) (signed s t τ v) * τ = σ * quotient u v := by
  rcases Int.isUnit_iff.mp hσ with rfl | rfl <;> rcases Int.isUnit_iff.mp hτ with rfl | rfl <;>
    simp [quotient, signed, Int.neg_tdiv, Int.tdiv_neg]

theorem remainder_signed (hσ : IsUnit σ) (hτ : IsUnit τ) (s t : Int) (u v : Bezout) :
    remainder (signed s t σ u) (signed s t τ v) = signed s t σ (remainder u v) := by
  have hquotient := quotient_signed hσ hτ s t u v
  have hstep : ∀ c d : Int, σ * c - quotient (signed s t σ u) (signed s t τ v) * (τ * d) =
      σ * (c - quotient u v * d) := by
    intro c d
    rw [← Int.mul_assoc, hquotient]
    ring
  rw [Bezout.mk.injEq]
  refine ⟨?_, ?_, hstep u.gcd v.gcd⟩
  · refine (hstep (s * u.x) (s * v.x)).trans ?_
    rw [signed, remainder_x]
    ring
  · refine (hstep (t * u.y) (t * v.y)).trans ?_
    rw [signed, remainder_y]
    ring

theorem gcd_signed_eq_zero_iff (hσ : IsUnit σ) (s t : Int) (u : Bezout) :
    (signed s t σ u).gcd = 0 ↔ u.gcd = 0 :=
  Int.mul_eq_zero.trans (or_iff_right hσ.ne_zero)

theorem descend_of_eq_zero (h : v.gcd = 0) (u : Bezout) : descend u v = u := by
  rw [descend, dif_pos h]

theorem descend_of_ne_zero (h : v.gcd ≠ 0) (u : Bezout) :
    descend u v = descend v (remainder u v) := by
  rw [descend, dif_neg h]

theorem descend_signed (hσ : IsUnit σ) (hτ : IsUnit τ) (s t : Int) (u v : Bezout) :
    ∃ ρ, IsUnit ρ ∧ descend (signed s t σ u) (signed s t τ v) = signed s t ρ (descend u v) := by
  -- the two rows change places in every turn, and their signs with them
  fun_induction Bezout.descend u v generalizing σ τ with
  | case1 u v hzero =>
      exact ⟨σ, hσ, descend_of_eq_zero ((gcd_signed_eq_zero_iff hτ s t v).mpr hzero) _⟩
  | case2 u v hne _ ih =>
      rw [descend_of_ne_zero (mt (gcd_signed_eq_zero_iff hτ s t v).mp hne),
        remainder_signed hσ hτ]
      exact ih hτ hσ

end Signs

/-- A row without the sign of its remainder. -/
def oriented (u : Bezout) : Bezout :=
  if u.gcd < 0 then u.neg else u

theorem oriented_signed {s t σ : Int} (hσ : IsUnit σ) (hne : u.gcd ≠ 0) :
    oriented (signed s t σ u) = signed s t 1 (oriented u) := by
  rcases Int.isUnit_iff.mp hσ with rfl | rfl <;>
    rcases Int.lt_or_gt_of_ne hne with hneg | hpos
  · simp [oriented, signed, neg, hneg]
  · simp [oriented, signed, hpos.not_gt]
  · simp [oriented, signed, neg, hneg, hneg.not_gt]
  · simp [oriented, signed, neg, hpos, hpos.not_gt]

theorem ofPair_eq (a b : Int) :
    ofPair a b = oriented (descend { x := 1, y := 0, gcd := a } { x := 0, y := 1, gcd := b }) :=
  rfl

theorem ofPair_zero_right (a : Int) : (ofPair a 0).y = 0 := by
  rw [ofPair_eq, descend_of_eq_zero rfl, oriented]
  split <;> rfl

theorem ofPair_zero_left (hb : b ≠ 0) : (ofPair 0 b).x = 0 := by
  have hrest : (remainder { x := 1, y := 0, gcd := 0 } { x := 0, y := 1, gcd := b }).gcd = 0 := by
    rw [remainder_gcd_eq_tmod, Int.zero_tmod]
  rw [ofPair_eq, descend_of_ne_zero hb, descend_of_eq_zero hrest, oriented]
  split <;> rfl

/-- A unit as the sign of an integer, zero included. -/
theorem exists_sign (a : Int) : ∃ s, IsUnit s ∧ s * |a| = a ∧ (a ≠ 0 → s = a.sign) := by
  rcases lt_trichotomy a 0 with hneg | rfl | hpos
  · refine ⟨-1, isUnit_one.neg, ?_, fun _ => (Int.sign_eq_neg_one_of_neg hneg).symm⟩
    rw [abs_of_neg hneg]
    ring
  · exact ⟨1, isUnit_one, rfl, fun h => absurd rfl h⟩
  · refine ⟨1, isUnit_one, ?_, fun _ => (Int.sign_eq_one_of_pos hpos).symm⟩
    rw [abs_of_pos hpos, Int.one_mul]

theorem gcd_abs (a b : Int) : Int.gcd |a| |b| = Int.gcd a b := by
  rw [Int.gcd, Int.gcd, Int.natAbs_abs, Int.natAbs_abs]

theorem gcd_descend_ne_zero (hne : ¬ (a = 0 ∧ b = 0)) :
    (descend { x := 1, y := 0, gcd := a } { x := 0, y := 1, gcd := b }).gcd ≠ 0 := by
  obtain ⟨_, hv, hlast⟩ := (Reached.start (a := a) (b := b)).descend
  rwa [← Int.natAbs_ne_zero, hv.natAbs_gcd hlast, ne_eq, Int.gcd_eq_zero_iff]

/-- Two runs side by side: the one for the absolute values has the same rows up to signs. -/
theorem ofPair_eq_signed {s t : Int} (hs : IsUnit s) (ht : IsUnit t) (hsa : s * |a| = a)
    (htb : t * |b| = b) (hne : ¬ (a = 0 ∧ b = 0)) :
    ofPair a b = signed s t 1 (ofPair |a| |b|) := by
  have hupper : signed s t s { x := 1, y := 0, gcd := |a| } = { x := 1, y := 0, gcd := a } := by
    simp [signed, hsa, Int.isUnit_mul_self hs]
  have hlower : signed s t t { x := 0, y := 1, gcd := |b| } = { x := 0, y := 1, gcd := b } := by
    simp [signed, htb, Int.isUnit_mul_self ht]
  obtain ⟨ρ, hρ, hrun⟩ := descend_signed hs ht s t
    { x := 1, y := 0, gcd := |a| } { x := 0, y := 1, gcd := |b| }
  rw [hupper, hlower] at hrun
  rw [ofPair_eq, ofPair_eq, hrun, oriented_signed hρ]
  exact gcd_descend_ne_zero (by simpa using hne)

theorem ofPair_eq_sign_mul (hne : ¬ (a = 0 ∧ b = 0)) :
    ofPair a b =
      { x := a.sign * (ofPair |a| |b|).x
        y := b.sign * (ofPair |a| |b|).y
        gcd := (ofPair |a| |b|).gcd } := by
  obtain ⟨s, hs, hsa, hsign⟩ := exists_sign a
  obtain ⟨t, ht, htb, htsign⟩ := exists_sign b
  have hx : s * (ofPair |a| |b|).x = a.sign * (ofPair |a| |b|).x := by
    by_cases ha : a = 0
    · have hb : |b| ≠ 0 := fun hb => hne ⟨ha, abs_eq_zero.mp hb⟩
      rw [ha, abs_zero, ofPair_zero_left hb, Int.mul_zero, Int.mul_zero]
    · rw [hsign ha]
  have hy : t * (ofPair |a| |b|).y = b.sign * (ofPair |a| |b|).y := by
    by_cases hb : b = 0
    · rw [hb, abs_zero, ofPair_zero_right, Int.mul_zero, Int.mul_zero]
    · rw [htsign hb]
  rw [ofPair_eq_signed hs ht hsa htb hne, signed, hx, hy]
  simp only [Int.one_mul]

/-- Another representation moves a coefficient by multiples of what the opposite operand is without
the common divisor, so a coefficient of at most half of that is a least one. -/
theorem natAbs_le_of_shift {gcd : Nat} {c c' operand k : Int} (hgcd : gcd ≠ 0)
    (hshift : c' * gcd = c * gcd + operand * k)
    (hsmall : 2 * (c.natAbs * gcd) ≤ operand.natAbs) : c.natAbs ≤ c'.natAbs := by
  refine Nat.le_of_mul_le_mul_right ?_ (Nat.pos_of_ne_zero hgcd)
  by_cases hk : k = 0
  · have hsame := congrArg Int.natAbs hshift
    rw [hk, Int.mul_zero, Int.add_zero, Int.natAbs_mul, Int.natAbs_mul, Int.natAbs_natCast] at hsame
    exact hsame.ge
  · have hmove : operand.natAbs ≤ (operand * k).natAbs := by
      rw [Int.natAbs_mul]
      exact Nat.le_mul_of_pos_right _ (Int.natAbs_pos.mpr hk)
    have hc : (c * gcd).natAbs = c.natAbs * gcd := Int.natAbs_mul c gcd
    have hc' : (c' * gcd).natAbs = c'.natAbs * gcd := Int.natAbs_mul c' gcd
    omega

theorem natAbs_add_le_of_small {x y x' y' : Int} (hne : Int.gcd a b ≠ 0)
    (hsum : a * x + b * y = Int.gcd a b) (hsum' : a * x' + b * y' = Int.gcd a b)
    (hx : 2 * (x.natAbs * Int.gcd a b) ≤ b.natAbs)
    (hy : 2 * (y.natAbs * Int.gcd a b) ≤ a.natAbs) :
    x.natAbs + y.natAbs ≤ x'.natAbs + y'.natAbs := by
  have hxShift : x' * Int.gcd a b = x * Int.gcd a b + b * (y * x' - x * y') := by
    linear_combination x * hsum' - x' * hsum
  have hyShift : y' * Int.gcd a b = y * Int.gcd a b + a * (x * y' - y * x') := by
    linear_combination y * hsum' - y' * hsum
  exact Nat.add_le_add (natAbs_le_of_shift hne hxShift hx) (natAbs_le_of_shift hne hyShift hy)

theorem natAbs_oriented (u : Bezout) :
    (oriented u).x.natAbs = u.x.natAbs ∧ (oriented u).y.natAbs = u.y.natAbs := by
  rw [oriented]
  split
  · exact ⟨Int.natAbs_neg u.x, Int.natAbs_neg u.y⟩
  · exact ⟨rfl, rfl⟩

theorem ofPair_first_or_small (a b : Int) :
    (ofPair a b).x.natAbs + (ofPair a b).y.natAbs = 1 ∨
      (2 * ((ofPair a b).x.natAbs * Int.gcd a b) ≤ b.natAbs ∧
        2 * ((ofPair a b).y.natAbs * Int.gcd a b) ≤ a.natAbs) := by
  obtain ⟨_, hv, hlast⟩ := (Reached.start (a := a) (b := b)).descend
  rw [ofPair_eq, (natAbs_oriented _).1, (natAbs_oriented _).2]
  exact hv.first_or_small hlast

/-- No other representation has a smaller sum of its coefficients' sizes. -/
theorem natAbs_ofPair_le {x y : Int} (hne : Int.gcd a b ≠ 0)
    (h : a * x + b * y = Int.gcd a b) :
    (ofPair a b).x.natAbs + (ofPair a b).y.natAbs ≤ x.natAbs + y.natAbs := by
  rcases ofPair_first_or_small a b with hone | ⟨hx, hy⟩
  · have hnonzero : ¬ (x = 0 ∧ y = 0) := by
      rintro ⟨rfl, rfl⟩
      omega
    omega
  · have hrow := represents_ofPair a b
    exact natAbs_add_le_of_small hne (hrow.sum_eq.trans hrow.gcd_eq) h hx hy

theorem eq_ofPair_of_extendedGcd (ha : w.Holds a) (hb : w.Holds b)
    (h : extendedGcd w a b = .ok row) :
    ¬ (a = 0 ∧ b = 0) ∧ Int.gcd a b < w.limit ∧ row = ofPair a b := by
  have hne : ¬ (a = 0 ∧ b = 0) := by
    rintro ⟨rfl, rfl⟩
    cases h
  rw [extendedGcd_eq ha hb hne] at h
  split at h
  case isTrue hlt => exact ⟨hne, hlt, (Except.ok.inj h).symm⟩
  case isFalse => cases h

theorem abs_le_of_small {gcd : Nat} {c operand : Int}
    (h : c.natAbs ≤ 1 ∨ 2 * (c.natAbs * gcd) ≤ operand.natAbs) :
    2 * gcd * |c| ≤ |operand| ∨ |c| ≤ 1 := by
  rw [Int.abs_eq_natAbs, Int.abs_eq_natAbs, mul_assoc, mul_comm (gcd : Int)]
  exact_mod_cast h.symm

/-- The coefficients of a result are at most half of the operands without their common divisor, or
at most one, and no representation has smaller ones together; those for the absolute values, where
these have the width, differ from them in the signs of the operands only. -/
theorem coefficients_minimal (ha : w.Holds a) (hb : w.Holds b)
    (h : extendedGcd w a b = .ok row) :
    (2 * row.gcd * |row.x| ≤ |b| ∨ |row.x| ≤ 1) ∧
    (2 * row.gcd * |row.y| ≤ |a| ∨ |row.y| ≤ 1) ∧
    (∀ x y, a * x + b * y = row.gcd → |row.x| + |row.y| ≤ |x| + |y|) ∧
    (w.Holds |a| → w.Holds |b| → ∃ row', extendedGcd w |a| |b| = .ok row' ∧
      row'.gcd = row.gcd ∧ row.x = a.sign * row'.x ∧ row.y = b.sign * row'.y) := by
  obtain ⟨hne, hlt, rfl⟩ := eq_ofPair_of_extendedGcd ha hb h
  have hgcd := (represents_ofPair a b).gcd_eq
  have hgcdNe : Int.gcd a b ≠ 0 := fun hzero => hne (Int.gcd_eq_zero_iff.mp hzero)
  have hsmall := (represents_ofPair a b).small
  refine ⟨?_, ?_, ?_, ?_⟩
  · rw [hgcd]
    exact abs_le_of_small (hsmall.imp And.left And.left)
  · rw [hgcd]
    exact abs_le_of_small (hsmall.imp And.right And.right)
  · intro x y hsum
    rw [hgcd] at hsum
    simp only [Int.abs_eq_natAbs]
    exact_mod_cast natAbs_ofPair_le hgcdNe hsum
  · intro ha' hb'
    have hne' : ¬ (|a| = 0 ∧ |b| = 0) := by simpa using hne
    have hsigns := ofPair_eq_sign_mul hne
    refine ⟨ofPair |a| |b|, ?_, ?_, ?_, ?_⟩
    · rw [extendedGcd_eq ha' hb' hne', gcd_abs, if_pos hlt]
    · rw [hsigns]
    · rw [hsigns]
    · rw [hsigns]

/-- Mixed signs, where the law of signs applies, and the least integer, where only the bounds do. -/
theorem coefficients_minimal_mixed :
    (extendedGcd .w32 (-120) 23 = .ok { x := 9, y := 47, gcd := 1 } ∧
      (∀ x y : Int, -120 * x + 23 * y = 1 → 56 ≤ |x| + |y|) ∧
      ∃ row', extendedGcd .w32 120 23 = .ok row' ∧ 9 = -row'.x ∧ 47 = row'.y) ∧
    extendedGcd .w32 (-2147483648) 6 = .ok { x := -1, y := -357913941, gcd := 2 } ∧
      2 * 2 * 357913941 ≤ (2147483648 : Int) := by
  constructor
  · have hrow : extendedGcd .w32 (-120) 23 = .ok { x := 9, y := 47, gcd := 1 } := by
      decide +kernel
    obtain ⟨_, _, hleast, hsigns⟩ := coefficients_minimal (by decide) (by decide) hrow
    obtain ⟨row', hrow', _, hx, hy⟩ := hsigns (by decide) (by decide)
    exact ⟨hrow, hleast, row', hrow', hx.trans (Int.neg_one_mul _), hy.trans (Int.one_mul _)⟩
  · have hrow : extendedGcd .w32 (-2147483648) 6 =
        .ok { x := -1, y := -357913941, gcd := 2 } := by
      decide +kernel
    obtain ⟨_, hbound, _⟩ := coefficients_minimal (by decide) (by decide) hrow
    exact ⟨hrow, hbound.resolve_right (by decide)⟩

end FermatMul.Bezout
