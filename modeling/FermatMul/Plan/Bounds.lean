import FermatMul.Product.Packing

/-!
Why a multiplication by transform only starts smaller ones: at 512 bits and more, both the packed
operands and the low halves of the coefficients are shorter than the operands.
-/

namespace FermatMul.Plan

open FermatMul.Words
open scoped FermatMul.CorePower

theorem two_pow_le_of_lt_binaryLength {n k : Nat} (h : k < binaryLength n) : 2 ^ k ≤ n :=
  lt_binaryLength_iff.mp h

/-- The shape of every plan for sixteen words and more: the blocks have `2 ^ k` words, and eight
times the square of that is below the operand. -/
theorem exists_ofSize {w : Nat} (hw : 16 ≤ w) :
    ∃ k, (ofSize (32 * w)).n = k + 6 ∧ 8 * (2 ^ k * 2 ^ k) < w := by
  let size := 2 * max (32 * w) 1 - 1
  let m := binaryLength size
  have hsize : size = 64 * w - 1 := by
    simp only [size]
    omega
  have hm : 9 < m := by
    apply lt_binaryLength_iff.mpr
    rw [hsize]
    omega
  refine ⟨m / 2 - 5, ?_, ?_⟩
  · change m / 2 + 1 = m / 2 - 5 + 6
    omega
  · have hlow : 2 ^ (m - 1) ≤ size := two_pow_le_of_lt_binaryLength (by omega)
    have hsquare : 2 ^ (m / 2 - 5) * 2 ^ (m / 2 - 5) * 2 ^ 9 ≤ 2 ^ (m - 1) := by
      rw [← Nat.pow_add, ← Nat.pow_add]
      exact Nat.pow_le_pow_right (by omega) (by omega)
    omega

theorem blockWords_eq {p : Plan} {k : Nat} (h : p.n = k + 6) : p.blockWords = 2 ^ k := by
  have hpow : 2 ^ (k + 5) = 2 ^ k * 32 := by rw [Nat.pow_add]
  simp only [blockWords, blockBits, Limits.bitsPerWord, h]
  change 2 ^ (k + 5) / 32 = 2 ^ k
  rw [hpow]
  omega

theorem ringWords_eq {p : Plan} {k : Nat} (h : p.n = k + 6) : p.ringWords = 2 * 2 ^ k := by
  have hpow : 2 ^ (k + 6) = 2 ^ k * 64 := by rw [Nat.pow_add]
  simp only [ringWords, ringBits, Limits.bitsPerWord, h]
  rw [hpow]
  omega

theorem le_mul_self {q : Nat} (h : 2 ≤ q) : 2 * q ≤ q * q :=
  Nat.mul_le_mul_right q h

theorem two_le_two_pow_succ (k : Nat) : 2 ≤ 2 ^ (k + 1) := by
  have hpos : 0 < 2 ^ k := Nat.two_pow_pos k
  rw [Nat.pow_succ]
  omega

theorem two_mul_ringWords_lt {w : Nat} (hw : 16 ≤ w) :
    2 * (ofSize (32 * w)).ringWords < w := by
  obtain ⟨k, hn, hk⟩ := exists_ofSize hw
  rw [ringWords_eq hn]
  have hpos : 0 < 2 ^ k := Nat.two_pow_pos k
  by_cases hone : 2 ^ k = 1
  · omega
  · have := le_mul_self (q := 2 ^ k) (by omega)
    omega

theorem slotBits_le {k : Nat} (hk : 1 ≤ k) : 3 * (k + 6) + 5 ≤ 13 * 2 ^ k := by
  induction k with
  | zero => omega
  | succ k ih =>
      cases k with
      | zero => decide
      | succ k =>
          have hstep := ih (by omega)
          rw [Nat.pow_succ]
          omega

theorem packedLength_le_of_single {p : Plan} (h : p.n = 6) (len : Nat) :
    32 * p.packedLength len ≤ 23 * len + 31 := by
  have hpiece := blockWords_eq (p := p) (k := 0) h
  simp only [packedLength, blockCount, slotBits, wordsFor, Limits.bitsPerWord, hpiece, h]
  omega

theorem packedLength_le {p : Plan} {k : Nat} (h : p.n = k + 6) (hk : 1 ≤ k) (len : Nat) :
    32 * p.packedLength len ≤ 13 * (len + 2 ^ k) + 31 := by
  have hpiece := blockWords_eq h
  have hfield : p.slotBits ≤ 13 * 2 ^ k := by
    simp only [slotBits, h]
    exact slotBits_le hk
  have hcount : p.blockCount len * 2 ^ k ≤ len + 2 ^ k := by
    simp only [blockCount, hpiece]
    exact Nat.le_trans (Nat.div_mul_le_self _ _) (Nat.sub_le _ _)
  have hbits : p.blockCount len * p.slotBits ≤ 13 * (len + 2 ^ k) := by
    calc p.blockCount len * p.slotBits ≤ p.blockCount len * (13 * 2 ^ k) :=
          Nat.mul_le_mul_left _ hfield
      _ = 13 * (p.blockCount len * 2 ^ k) := by
          rw [Nat.mul_left_comm]
      _ ≤ 13 * (len + 2 ^ k) := Nat.mul_le_mul_left _ hcount
  simp only [packedLength, wordsFor, Limits.bitsPerWord]
  omega

theorem packedLength_add_lt {a b : Nat} (hlong : 16 ≤ max a b) :
    (ofSize (32 * max a b)).packedLength a + (ofSize (32 * max a b)).packedLength b < a + b := by
  obtain ⟨k, hn, hk⟩ := exists_ofSize hlong
  cases k with
  | zero =>
      have ha := packedLength_le_of_single hn a
      have hb := packedLength_le_of_single hn b
      omega
  | succ k =>
      have ha := packedLength_le hn (by omega) a
      have hb := packedLength_le hn (by omega) b
      have htwo := two_le_two_pow_succ k
      have hsquare := le_mul_self htwo
      omega

/-- Packing shortens the longer operand to four fifths of its length at most; a shorter one may
grow, but not beyond that. -/
theorem five_mul_packedLength_le {w len : Nat} (hw : 16 ≤ w) (hlen : len ≤ w) :
    5 * (ofSize (32 * w)).packedLength len ≤ 4 * w := by
  obtain ⟨k, hn, hk⟩ := exists_ofSize hw
  cases k with
  | zero =>
      have hpacked := packedLength_le_of_single hn len
      omega
  | succ k =>
      have hpacked := packedLength_le hn (by omega) len
      have htwo := two_le_two_pow_succ k
      have hsquare := le_mul_self htwo
      omega

theorem ofSize_m_le_iff {bits k : Nat} : (ofSize bits).m ≤ k ↔ 2 * max bits 1 ≤ 2 ^ k := by
  have hpos : 0 < 2 ^ k := Nat.two_pow_pos k
  change binaryLength (2 * max bits 1 - 1) ≤ k ↔ _
  rw [binaryLength_le_iff]
  omega

theorem ofSize_m_mono {short long : Nat} (h : short ≤ long) :
    (ofSize short).m ≤ (ofSize long).m := by
  have hlong := ofSize_m_le_iff.mp (Nat.le_refl (ofSize long).m)
  rw [ofSize_m_le_iff]
  omega

/-- Operands as long as half a residue have a plan for products of the ring's bits. -/
theorem ofSize_m_le_of_le_ringWords {p : Plan} {len : Nat} (h : len ≤ p.ringWords) :
    (ofSize (32 * len)).m ≤ p.n + 1 := by
  have hring : p.ringWords * 32 ≤ 2 ^ p.n := Nat.div_mul_le_self _ _
  have hpos : 0 < 2 ^ p.n := Nat.two_pow_pos p.n
  rw [ofSize_m_le_iff, Nat.pow_succ]
  omega

end FermatMul.Plan
