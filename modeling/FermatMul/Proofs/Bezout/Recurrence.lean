import Mathlib.Algebra.Order.Ring.Int
import Mathlib.Tactic.Linarith
import Mathlib.Tactic.Ring
import FermatMul.Bezout

/-!
The rows of the extended Euclidean recurrence, from the first pair to the one whose remainder is
zero. Every pair represents its remainders by the two integers, keeps their greatest common
divisor, and balances its coefficients against its remainders, whatever the signs are. The balance
bounds every number of the recurrence.
-/

namespace FermatMul.Bezout

variable {a b : Int} {u v : Bezout}

/-- The pairs of consecutive rows through which the recurrence of two integers runs. -/
inductive Reached (a b : Int) : Bezout → Bezout → Prop
  | start : Reached a b { x := 1, y := 0, gcd := a } { x := 0, y := 1, gcd := b }
  | next {u v : Bezout} (h : Reached a b u v) (hne : v.gcd ≠ 0) : Reached a b v (remainder u v)

theorem Reached.descend (h : Reached a b u v) :
    ∃ last, Reached a b (descend u v) last ∧ last.gcd = 0 := by
  fun_induction Bezout.descend u v with
  | case1 u v hzero => exact ⟨v, h, hzero⟩
  | case2 u v hne _ ih => exact ih (h.next hne)

def quotient (u v : Bezout) : Int := u.gcd.tdiv v.gcd

theorem remainder_x (u v : Bezout) : (remainder u v).x = u.x - quotient u v * v.x := rfl

theorem remainder_y (u v : Bezout) : (remainder u v).y = u.y - quotient u v * v.y := rfl

theorem remainder_gcd (u v : Bezout) : (remainder u v).gcd = u.gcd - quotient u v * v.gcd := rfl

theorem remainder_gcd_eq_tmod (u v : Bezout) : (remainder u v).gcd = u.gcd.tmod v.gcd := by
  rw [remainder_gcd, quotient, Int.tmod_def, Int.mul_comm]

theorem natAbs_gcd_eq (u v : Bezout) :
    u.gcd.natAbs =
      (quotient u v).natAbs * v.gcd.natAbs + (remainder u v).gcd.natAbs := by
  rw [remainder_gcd_eq_tmod, quotient, Int.natAbs_tdiv, Int.natAbs_tmod, Nat.mul_comm]
  exact (Nat.div_add_mod _ _).symm

/-- The quotient has the sign of the product of the two remainders. -/
theorem quotient_mul_nonneg (u v : Bezout) : 0 ≤ quotient u v * (u.gcd * v.gcd) := by
  rw [quotient]
  rcases Int.le_total 0 u.gcd with hu | hu <;> rcases Int.le_total 0 v.gcd with hv | hv
  · exact mul_nonneg (Int.tdiv_nonneg hu hv) (mul_nonneg hu hv)
  · exact mul_nonneg_of_nonpos_of_nonpos (Int.tdiv_nonpos_of_nonneg_of_nonpos hu hv)
      (mul_nonpos_of_nonneg_of_nonpos hu hv)
  · have hneg : u.gcd.tdiv v.gcd ≤ 0 := by
      have h := Int.tdiv_nonneg (Int.neg_nonneg_of_nonpos hu) hv
      rw [Int.neg_tdiv] at h
      omega
    exact mul_nonneg_of_nonpos_of_nonpos hneg (mul_nonpos_of_nonpos_of_nonneg hu hv)
  · exact mul_nonneg (Int.tdiv_nonneg_of_nonpos_of_nonpos hu hv)
      (mul_nonneg_of_nonpos_of_nonpos hu hv)

/-- The new remainder has the sign of the one before the last. -/
theorem remainder_mul_nonneg (u v : Bezout) : 0 ≤ (remainder u v).gcd * u.gcd := by
  rw [remainder_gcd_eq_tmod]
  rcases Int.le_total 0 u.gcd with hu | hu
  · exact mul_nonneg (Int.tmod_nonneg _ hu) hu
  · have hneg : u.gcd.tmod v.gcd ≤ 0 := by
      have h := Int.tmod_nonneg v.gcd (Int.neg_nonneg_of_nonpos hu)
      rw [Int.neg_tmod] at h
      omega
    exact mul_nonneg_of_nonpos_of_nonpos hneg hu

theorem quotient_eq_zero (h : u.gcd = 0) (v : Bezout) : quotient u v = 0 := by
  rw [quotient, h, Int.zero_tdiv]

/-- The product of two coefficients has not the sign of the product of the remainders beside
them. -/
def Alternates (c d r s : Int) : Prop := c * d * (r * s) ≤ 0

section Coefficients

variable {c d : Int}

theorem Alternates.mul_quotient_nonpos (h : Alternates c d u.gcd v.gcd) (hne : v.gcd ≠ 0) :
    c * (quotient u v * d) ≤ 0 := by
  by_cases hzero : u.gcd = 0
  · rw [quotient_eq_zero hzero, Int.zero_mul, Int.mul_zero]
  · have hpos : 0 < (u.gcd * v.gcd) * (u.gcd * v.gcd) := mul_self_pos.mpr (mul_ne_zero hzero hne)
    have hproduct := mul_nonpos_of_nonpos_of_nonneg h (quotient_mul_nonneg u v)
    refine nonpos_of_mul_nonpos_left ?_ hpos
    calc
      c * (quotient u v * d) * ((u.gcd * v.gcd) * (u.gcd * v.gcd)) =
          c * d * (u.gcd * v.gcd) * (quotient u v * (u.gcd * v.gcd)) := by ring
      _ ≤ 0 := hproduct

theorem Alternates.step (h : Alternates c d u.gcd v.gcd) :
    Alternates d (c - quotient u v * d) v.gcd (remainder u v).gcd := by
  rw [Alternates]
  by_cases hzero : u.gcd = 0
  · rw [remainder_gcd_eq_tmod, hzero, Int.zero_tmod, Int.mul_zero, Int.mul_zero]
  · have hpos : 0 < u.gcd * u.gcd := mul_self_pos.mpr hzero
    have hsign := remainder_mul_nonneg u v
    have hkeep : c * d * (u.gcd * v.gcd) * ((remainder u v).gcd * u.gcd) ≤ 0 :=
      mul_nonpos_of_nonpos_of_nonneg h hsign
    have hgrow : 0 ≤ quotient u v * (u.gcd * v.gcd) * ((remainder u v).gcd * u.gcd) * (d * d) :=
      mul_nonneg (mul_nonneg (quotient_mul_nonneg u v) hsign) (mul_self_nonneg d)
    refine nonpos_of_mul_nonpos_left ?_ hpos
    calc
      d * (c - quotient u v * d) * (v.gcd * (remainder u v).gcd) * (u.gcd * u.gcd) =
          c * d * (u.gcd * v.gcd) * ((remainder u v).gcd * u.gcd) -
            quotient u v * (u.gcd * v.gcd) * ((remainder u v).gcd * u.gcd) * (d * d) := by ring
      _ ≤ 0 := by omega

/-- Opposite signs make the coefficients grow: nothing cancels in a step. -/
theorem Alternates.natAbs_sub (h : Alternates c d u.gcd v.gcd) (hne : v.gcd ≠ 0) :
    (c - quotient u v * d).natAbs = c.natAbs + (quotient u v).natAbs * d.natAbs := by
  rw [← Int.natAbs_mul]
  rcases mul_nonpos_iff.mp (h.mul_quotient_nonpos hne) with ⟨hc, hd⟩ | ⟨hc, hd⟩ <;> omega

/-- The coefficients of a pair of rows, weighted by the remainders of the other row, add up to the
size of the opposite operand. -/
structure Balanced (size : Nat) (c d r s : Int) : Prop where
  alternates : Alternates c d r s
  sum_eq : d.natAbs * r.natAbs + c.natAbs * s.natAbs = size

variable {size : Nat}

theorem Balanced.step (h : Balanced size c d u.gcd v.gcd) (hne : v.gcd ≠ 0) :
    Balanced size d (c - quotient u v * d) v.gcd (remainder u v).gcd where
  alternates := h.alternates.step
  sum_eq := by
    rw [← h.sum_eq, h.alternates.natAbs_sub hne, natAbs_gcd_eq u v]
    ring

theorem Balanced.natAbs_lower_le (h : Balanced size c d u.gcd v.gcd) (hne : u.gcd ≠ 0) :
    d.natAbs ≤ size := by
  have hpos : 0 < u.gcd.natAbs := Int.natAbs_pos.mpr hne
  calc
    d.natAbs ≤ d.natAbs * u.gcd.natAbs := Nat.le_mul_of_pos_right _ hpos
    _ ≤ size := by
      rw [← h.sum_eq]
      exact Nat.le_add_right ..

end Coefficients

/-- What every pair of rows keeps. -/
structure Invariant (a b : Int) (u v : Bezout) : Prop where
  upper : a * u.x + b * u.y = u.gcd
  lower : a * v.x + b * v.y = v.gcd
  gcd_eq : Int.gcd u.gcd v.gcd = Int.gcd a b
  x_balanced : Balanced b.natAbs u.x v.x u.gcd v.gcd
  y_balanced : Balanced a.natAbs u.y v.y u.gcd v.gcd

theorem invariant_start (a b : Int) :
    Invariant a b { x := 1, y := 0, gcd := a } { x := 0, y := 1, gcd := b } where
  upper := by ring
  lower := by ring
  gcd_eq := rfl
  x_balanced := ⟨by simp [Alternates], by simp⟩
  y_balanced := ⟨by simp [Alternates], by simp⟩

theorem Invariant.step (h : Invariant a b u v) (hne : v.gcd ≠ 0) :
    Invariant a b v (remainder u v) where
  upper := h.lower
  lower := by
    rw [remainder_x, remainder_y, remainder_gcd, ← h.upper, ← h.lower]
    ring
  gcd_eq := by
    rw [remainder_gcd, Int.gcd_sub_mul_right_right, Int.gcd_comm]
    exact h.gcd_eq
  x_balanced := h.x_balanced.step hne
  y_balanced := h.y_balanced.step hne

theorem Reached.invariant (h : Reached a b u v) : Invariant a b u v := by
  induction h with
  | start => exact invariant_start a b
  | next _ hne ih => exact ih.step hne

/-- The remainders get smaller from the second pair on. -/
theorem Reached.start_or_lt (h : Reached a b u v) :
    (u = { x := 1, y := 0, gcd := a } ∧ v = { x := 0, y := 1, gcd := b }) ∨
      v.gcd.natAbs < u.gcd.natAbs := by
  cases h with
  | start => exact .inl ⟨rfl, rfl⟩
  | @next w _ _ hne => exact .inr (natAbs_gcd_remainder_lt w hne)

/-- The last quotient is at least two, unless it is the first one: so the last row is one of the
first two, or its coefficients are at most half of the next ones. -/
theorem Reached.first_or_half (h : Reached a b u v) (hlast : v.gcd = 0) :
    u.x.natAbs + u.y.natAbs = 1 ∨
      (2 * u.x.natAbs ≤ v.x.natAbs ∧ 2 * u.y.natAbs ≤ v.y.natAbs) := by
  cases h with
  | start => exact .inl rfl
  | @next w _ hw hne =>
      rcases hw.start_or_lt with ⟨_, rfl⟩ | hlt
      · exact .inl rfl
      · have hdivides := natAbs_gcd_eq w u
        rw [hlast, Int.natAbs_zero, Nat.add_zero] at hdivides
        have htwo : 2 ≤ (quotient w u).natAbs := by
          by_contra hsmall
          have hone := Nat.mul_le_mul_right u.gcd.natAbs (show (quotient w u).natAbs ≤ 1 by omega)
          omega
        have hw := hw.invariant
        rw [remainder_x, remainder_y, hw.x_balanced.alternates.natAbs_sub hne,
          hw.y_balanced.alternates.natAbs_sub hne]
        exact .inr ⟨(Nat.mul_le_mul_right _ htwo).trans (Nat.le_add_left ..),
          (Nat.mul_le_mul_right _ htwo).trans (Nat.le_add_left ..)⟩

end FermatMul.Bezout
