import FermatMul.Plan.Basic
import FermatMul.Proofs.Fourier.Evaluation

namespace FermatMul.Plan

open FermatMul.Residue

variable {p : Plan}

theorem thirtyTwo_mul_ringWords (hn : 5 ≤ p.n) : 32 * p.ringWords = 2 ^ p.n :=
  Nat.mul_div_cancel' (Nat.pow_dvd_pow 2 hn)

theorem ringWords_pos (hn : 5 ≤ p.n) : 0 < p.ringWords := by
  have h := thirtyTwo_mul_ringWords hn
  have := Nat.two_pow_pos p.n
  omega

theorem ringWords_ne_zero (hn : 5 ≤ p.n) : p.ringWords ≠ 0 :=
  Nat.ne_of_gt (ringWords_pos hn)

theorem logLength_le (p : Plan) : p.logLength ≤ p.n := by
  rw [logLength]
  split <;> omega

theorem length_pos (p : Plan) : 0 < p.length := Nat.two_pow_pos _

theorem length_dvd_ringBits (p : Plan) : p.length ∣ p.ringBits :=
  Nat.pow_dvd_pow 2 p.logLength_le

theorem weightExponent_mul_length (p : Plan) : p.weightExponent * p.length = p.ringBits :=
  Nat.div_mul_cancel p.length_dvd_ringBits

theorem full_turn_eq (hn : 5 ≤ p.n) :
    32 * (2 * p.ringWords) = 2 ^ (p.logLength + 1) * p.weightExponent := by
  have h := p.weightExponent_mul_length
  rw [length, ringBits, ← thirtyTwo_mul_ringWords hn] at h
  rw [Nat.mul_left_comm, ← h, Nat.pow_succ]
  ring

theorem two_mul_length_dvd (hn : 5 ≤ p.n) : 2 ^ (p.logLength + 1) ∣ 32 * (2 * p.ringWords) :=
  ⟨_, full_turn_eq hn⟩

theorem length_dvd (hn : 5 ≤ p.n) : 2 ^ p.logLength ∣ 32 * (2 * p.ringWords) :=
  (Nat.pow_dvd_pow 2 (Nat.le_succ _)).trans (two_mul_length_dvd hn)

def weight (p : Plan) : FermatRing p.ringWords :=
  Fourier.root p.ringWords (p.logLength + 1)

theorem two_pow_mul_weightExponent (hn : 5 ≤ p.n) (j : Nat) :
    (2 : FermatRing p.ringWords) ^ (j * p.weightExponent) = p.weight ^ j := by
  rw [weight, Fourier.root, full_turn_eq hn, Nat.mul_div_cancel_left _ (Nat.two_pow_pos _)]
  exact pow_mul' 2 j p.weightExponent

theorem two_pow_weight (hn : 5 ≤ p.n) :
    (2 : FermatRing p.ringWords) ^ (32 * p.ringWords / p.length) = p.weight := by
  have h := two_pow_mul_weightExponent hn 1
  rwa [Nat.one_mul, pow_one, weightExponent, ringBits, ← thirtyTwo_mul_ringWords hn] at h

theorem cast_length (p : Plan) :
    (p.length : FermatRing p.ringWords) = 2 ^ p.logLength := by
  rw [length]
  push_cast
  rfl

theorem isUnit_weight (hn : 5 ≤ p.n) : IsUnit p.weight := by
  rw [← two_pow_weight hn]
  exact isUnit_two_pow (ringWords_ne_zero hn) _

/-- The length of the transform and the weights can be divided by. -/
theorem scale_cancel (hn : 5 ≤ p.n) {j : Nat} {r s : FermatRing p.ringWords}
    (h : 2 ^ p.logLength * (p.weight ^ j * r) = 2 ^ p.logLength * (p.weight ^ j * s)) :
    r = s :=
  ((isUnit_weight hn).pow j).mul_left_cancel
    ((isUnit_two_pow (ringWords_ne_zero hn) _).mul_left_cancel h)

theorem weight_pow_length (hn : 5 ≤ p.n) : p.weight ^ 2 ^ p.logLength = -1 :=
  Fourier.root_succ_pow (two_mul_length_dvd hn)

theorem root_eq_weight_sq (hn : 5 ≤ p.n) :
    Fourier.root p.ringWords p.logLength = p.weight ^ 2 :=
  (Fourier.root_succ_sq (two_mul_length_dvd hn)).symm

end FermatMul.Plan
