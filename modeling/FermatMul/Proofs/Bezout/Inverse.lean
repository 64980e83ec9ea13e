import Mathlib.Data.Int.ModEq
import Mathlib.RingTheory.Coprime.Lemmas
import FermatMul.Proofs.Bezout.Width

namespace FermatMul.Bezout

variable {a modulus v : Int} {w : IntWidth}

theorem inverse_of_nonpos (h : modulus ≤ 0) (a : Int) :
    inverse w a modulus = .error (.modulusNotPositive modulus) :=
  if_pos h

theorem emod_mem (hpos : 0 < modulus) (x : Int) : 0 ≤ x % modulus ∧ x % modulus < modulus :=
  ⟨Int.emod_nonneg x hpos.ne', Int.emod_lt_of_pos x hpos⟩

theorem extendedGcd_emod (hm : w.Holds modulus) (hpos : 0 < modulus) (a : Int) :
    extendedGcd w (a % modulus) modulus = .ok (ofPair (a % modulus) modulus) := by
  have hlimit := hm
  rw [IntWidth.holds_iff] at hlimit
  obtain ⟨hlow, hhigh⟩ := emod_mem hpos a
  have hreduced : w.Holds (a % modulus) := by
    rw [IntWidth.holds_iff]
    omega
  have hgcd : Int.gcd (a % modulus) modulus ≤ modulus.natAbs := Int.gcd_le_natAbs_right _ hpos.ne'
  rw [extendedGcd_eq hreduced hm (by omega), if_pos (by omega)]

/-- The inverse as one rule: a modulus of one and the multiples of the modulus are no exceptions. -/
theorem inverse_of_pos (hm : w.Holds modulus) (hpos : 0 < modulus) (a : Int) :
    inverse w a modulus =
      .ok (if Int.gcd a modulus = 1 then some ((ofPair (a % modulus) modulus).x % modulus)
        else none) := by
  rw [inverse, if_neg (Int.not_le.mpr hpos)]
  split
  case isTrue hone =>
    rw [hone, if_pos (Int.gcd_one_right a), Int.emod_one]
  case isFalse hone =>
    split
    case isTrue hmultiple =>
      have hgcd : Int.gcd a modulus = modulus.natAbs := by
        rw [← Int.gcd_emod, hmultiple, Int.gcd_zero_left]
      rw [hgcd, if_neg (by omega)]
    case isFalse =>
      have hgcd := (represents_ofPair (a % modulus) modulus).gcd_eq
      rw [Int.gcd_emod] at hgcd
      rw [extendedGcd_emod hm hpos]
      change Except.ok (if (ofPair (a % modulus) modulus).gcd = 1 then _ else _) = _
      simp only [hgcd, Nat.cast_eq_one]

/-- The coefficient of the operand in a Bézout row of one inverts it. -/
theorem mul_coefficient_modEq (h : Int.gcd a modulus = 1) :
    a * ((ofPair (a % modulus) modulus).x % modulus) ≡ 1 [ZMOD modulus] := by
  have hrow := represents_ofPair (a % modulus) modulus
  have hsum := hrow.sum_eq
  rw [hrow.gcd_eq, Int.gcd_emod, h, Nat.cast_one] at hsum
  calc
    a * ((ofPair (a % modulus) modulus).x % modulus)
        ≡ a % modulus * (ofPair (a % modulus) modulus).x [ZMOD modulus] :=
      (Int.mod_modEq a modulus).symm.mul (Int.mod_modEq _ modulus)
    _ ≡ a % modulus * (ofPair (a % modulus) modulus).x +
        modulus * (ofPair (a % modulus) modulus).y [ZMOD modulus] :=
      Int.modEq_add_fac_self.symm
    _ = 1 := hsum

theorem gcd_eq_one_of_mul_modEq (h : a * v ≡ 1 [ZMOD modulus]) : Int.gcd a modulus = 1 := by
  obtain ⟨t, ht⟩ := Int.modEq_iff_add_fac.mp h
  refine Int.isCoprime_iff_gcd_eq_one.mp ⟨v, t, ?_⟩
  rw [ht]
  ring

/-- Two inverses of one operand are congruent, so there is at most one in the range. -/
theorem eq_of_mul_modEq {v' : Int} (hv : 0 ≤ v ∧ v < modulus) (hv' : 0 ≤ v' ∧ v' < modulus)
    (h : a * v ≡ 1 [ZMOD modulus]) (h' : a * v' ≡ 1 [ZMOD modulus]) : v = v' := by
  have hcongr : v ≡ v' [ZMOD modulus] :=
    calc
      v = v * 1 := (Int.mul_one v).symm
      _ ≡ v * (a * v') [ZMOD modulus] := h'.symm.mul_left v
      _ = a * v * v' := by ring
      _ ≡ 1 * v' [ZMOD modulus] := h.mul_right v'
      _ = v' := Int.one_mul v'
  rw [← Int.emod_eq_of_lt hv.1 hv.2, ← Int.emod_eq_of_lt hv'.1 hv'.2]
  exact hcongr

theorem inverse_eq_some_iff (hm : w.Holds modulus) (hpos : 0 < modulus) :
    inverse w a modulus = .ok (some v) ↔
      (0 ≤ v ∧ v < modulus) ∧ a * v ≡ 1 [ZMOD modulus] := by
  rw [inverse_of_pos hm hpos]
  constructor
  · intro h
    split at h
    case isTrue hgcd =>
      cases h
      exact ⟨emod_mem hpos _, mul_coefficient_modEq hgcd⟩
    case isFalse => cases h
  · rintro ⟨hv, hmul⟩
    have hgcd := gcd_eq_one_of_mul_modEq hmul
    rw [if_pos hgcd, eq_of_mul_modEq hv (emod_mem hpos _) hmul (mul_coefficient_modEq hgcd)]

theorem inverse_isSome_iff (hm : w.Holds modulus) (hpos : 0 < modulus) :
    (∃ v, inverse w a modulus = .ok (some v)) ↔ Int.gcd a modulus = 1 := by
  rw [inverse_of_pos hm hpos]
  split <;> simp_all

theorem inverse_eq_none_iff (hm : w.Holds modulus) (hpos : 0 < modulus) :
    inverse w a modulus = .ok none ↔ Int.gcd a modulus ≠ 1 := by
  rw [inverse_of_pos hm hpos]
  split <;> simp_all

theorem inverse_eq_error_iff (hm : w.Holds modulus) {e : Refusal} :
    inverse w a modulus = .error e ↔ modulus ≤ 0 ∧ e = .modulusNotPositive modulus := by
  rcases Int.lt_or_le 0 modulus with hpos | hneg
  · rw [inverse_of_pos hm hpos]
    exact iff_of_false nofun fun h => Int.not_le.mpr hpos h.1
  · rw [inverse_of_nonpos hneg, Except.error.injEq, eq_comm]
    exact (and_iff_right hneg).symm

/-- An inverse is inverted by the residue of the operand. -/
theorem inverse_inverse (hm : w.Holds modulus) (hpos : 0 < modulus)
    (h : inverse w a modulus = .ok (some v)) :
    inverse w v modulus = .ok (some (a % modulus)) := by
  obtain ⟨_, hmul⟩ := (inverse_eq_some_iff hm hpos).mp h
  refine (inverse_eq_some_iff hm hpos).mpr ⟨emod_mem hpos a, ?_⟩
  calc
    v * (a % modulus) ≡ v * a [ZMOD modulus] := (Int.mod_modEq a modulus).mul_left v
    _ = a * v := Int.mul_comm v a
    _ ≡ 1 [ZMOD modulus] := hmul

theorem inverse_congr {a' : Int} (h : a ≡ a' [ZMOD modulus]) :
    inverse w a modulus = inverse w a' modulus := by
  rw [inverse, inverse, h.eq]

/-- Modulo a positive integer of a width the inverse exists exactly for the operands without a
common divisor, and is the only one in the range; it is inverted by the residue of the operand,
which is all that it depends on. Any other modulus is refused, and nothing else is. -/
theorem inverses_exact (hm : w.Holds modulus) (a : Int) :
    ((∃ e, inverse w a modulus = .error e ∧ e.kind = .invalidArgument) ↔ modulus ≤ 0) ∧
    (∀ e, inverse w a modulus = .error e →
      e = .modulusNotPositive modulus ∧ e.kind = .invalidArgument) ∧
    (0 < modulus →
      ((∃ v, inverse w a modulus = .ok (some v)) ↔ Int.gcd a modulus = 1) ∧
      (inverse w a modulus = .ok none ↔ Int.gcd a modulus ≠ 1) ∧
      (∀ v, inverse w a modulus = .ok (some v) ↔
        (0 ≤ v ∧ v < modulus) ∧ a * v ≡ 1 [ZMOD modulus]) ∧
      ∀ v, inverse w a modulus = .ok (some v) → inverse w v modulus = .ok (some (a % modulus))) ∧
    ∀ a', a ≡ a' [ZMOD modulus] → inverse w a modulus = inverse w a' modulus := by
  have hrefused : ∀ e, inverse w a modulus = .error e →
      e = .modulusNotPositive modulus ∧ e.kind = .invalidArgument := by
    intro e he
    obtain ⟨_, rfl⟩ := (inverse_eq_error_iff hm).mp he
    exact ⟨rfl, rfl⟩
  refine ⟨?_, hrefused, fun hpos => ?_, fun _ h => inverse_congr h⟩
  · constructor
    · rintro ⟨e, he, _⟩
      exact ((inverse_eq_error_iff hm).mp he).1
    · intro hneg
      exact ⟨_, inverse_of_nonpos hneg a, rfl⟩
  · exact ⟨inverse_isSome_iff hm hpos, inverse_eq_none_iff hm hpos,
      fun _ => inverse_eq_some_iff hm hpos, fun _ => inverse_inverse hm hpos⟩

/-- The least operand modulo the largest one is its own inverse, up to its residue. -/
theorem inverses_exact_least :
    IntWidth.w32.Holds 2147483647 ∧
      inverse .w32 (-2147483648) 2147483647 = .ok (some 2147483646) ∧
      inverse .w32 2147483646 2147483647 = .ok (some 2147483646) ∧
      inverse .w32 (-2147483648) 6 = .ok none ∧
      ∃ e, inverse .w32 3 (-2147483648) = .error e ∧ e.kind = .invalidArgument := by
  have hm : IntWidth.w32.Holds 2147483647 := by decide
  have hsix : IntWidth.w32.Holds 6 := by decide
  have hleast : IntWidth.w32.Holds (-2147483648) := by decide
  obtain ⟨_, _, hlargest, _⟩ := inverses_exact hm (-2147483648)
  obtain ⟨_, _, hsome, hback⟩ := hlargest (by decide)
  have hinverse := (hsome 2147483646).mpr (by decide)
  obtain ⟨_, _, hcommon, _⟩ := inverses_exact hsix (-2147483648)
  exact ⟨hm, hinverse, hback _ hinverse, (hcommon (by decide)).2.1.mpr (by decide),
    (inverses_exact hleast 3).1.mpr (by decide)⟩

end FermatMul.Bezout
