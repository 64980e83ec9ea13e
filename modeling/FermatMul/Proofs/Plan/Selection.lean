import Mathlib.Data.Nat.Digits.Lemmas
import Mathlib.Order.Bounds.Basic
import FermatMul.Proofs.Fourier.Checked
import FermatMul.Proofs.Plan.Sizes

namespace FermatMul.Plan

open FermatMul.Words

variable {p : Plan} {bits : Nat}

/-- Exponents that belong together, of a product that is not empty. -/
structure Paired (p : Plan) : Prop where
  one_le_m : 1 ≤ p.m
  n_eq : p.n = p.m / 2 + 1

theorem paired_ofSize (bits : Nat) : Paired (ofSize bits) where
  one_le_m := by
    rw [← Nat.not_lt, Nat.lt_one_iff, ← Nat.le_zero, ofSize_m_le_iff]
    omega
  n_eq := rfl

theorem Paired.one_le_n (h : Paired p) : 1 ≤ p.n := by
  rw [h.n_eq]
  exact Nat.le_add_left 1 _

theorem Paired.one_le_logLength (h : Paired p) : 1 ≤ p.logLength := by
  have hm := h.one_le_m
  have hn := h.n_eq
  rw [logLength]
  split <;> omega

theorem Paired.length_div_two (h : Paired p) : p.length / 2 = p.halfLength := by
  have hdouble := two_mul_halfLength h.one_le_logLength
  omega

/-- A sum of products of fields of one width, as many as there are blocks in an operand. -/
theorem sum_products_lt (p : Plan) (width : Nat) :
    p.length / 2 * (2 ^ width - 1) ^ 2 < 2 ^ (p.n + 2 * width) := by
  have hfield : (2 ^ width - 1) ^ 2 < (2 ^ width) ^ 2 := by
    have hpos := Nat.two_pow_pos width
    exact Nat.pow_lt_pow_left (by omega) (by decide)
  have hhalf : p.length / 2 ≤ 2 ^ p.n := (Nat.div_le_self _ _).trans p.length_le
  calc
    p.length / 2 * (2 ^ width - 1) ^ 2 ≤ 2 ^ p.n * (2 ^ width - 1) ^ 2 :=
      Nat.mul_le_mul_right _ hhalf
    _ < 2 ^ p.n * (2 ^ width) ^ 2 := Nat.mul_lt_mul_of_pos_left hfield (Nat.two_pow_pos _)
    _ = 2 ^ (p.n + 2 * width) := by rw [← Nat.pow_mul, ← Nat.pow_add, Nat.mul_comm width]

theorem packed_sum_lt (p : Plan) :
    p.length / 2 * (2 ^ (p.n + 2) - 1) ^ 2 < 2 ^ p.slotBits :=
  (p.sum_products_lt p.dyadicBits).trans p.two_pow_lt_slot

theorem Paired.block_sum_lt (h : Paired p) :
    p.length / 2 * (2 ^ p.blockBits - 1) ^ 2 < 2 ^ (p.n + 2) * (2 ^ 2 ^ p.n + 1) :=
  (p.sum_products_lt p.blockBits).trans (two_pow_lt_moduli h.one_le_n)

section Operands

variable (hpaired : Paired p) (hbits : 2 * bits ≤ 2 ^ p.m)

include hpaired hbits

theorem Paired.bits_le : bits ≤ p.blockBits * (p.length / 2) := by
  rw [hpaired.length_div_two]
  exact Plan.bits_le hpaired.n_eq hpaired.one_le_logLength hbits

/-- The blocks of a number are its digits to the base of one block. -/
theorem Paired.length_digits_le {x : Nat} (hx : x < 2 ^ bits) :
    (Nat.digits (2 ^ p.blockBits) x).length ≤ p.length / 2 := by
  have hbase : 1 < 2 ^ p.blockBits := Nat.one_lt_two_pow (Nat.two_pow_pos _).ne'
  rw [Nat.digits_length_le_iff hbase, ← Nat.pow_mul]
  exact hx.trans_le (Nat.pow_le_pow_right (by decide) (hpaired.bits_le hbits))

theorem Paired.blockCount_trim_le (hn : 6 ≤ p.n) {x : Words} (hx : significantBits x ≤ bits) :
    p.blockCount (trim x).length ≤ p.length / 2 := by
  rw [blockCount_le_iff hn, length_trim, wordsFor_le_iff, Nat.mul_left_comm,
    thirtyTwo_mul_blockWords hn, Nat.mul_comm]
  exact hx.trans (hpaired.bits_le hbits)

end Operands

theorem isLeast_ofSize_m (hbits : 1 ≤ bits) :
    IsLeast {m | 2 * bits ≤ 2 ^ m} (ofSize bits).m := by
  have hmax : max bits 1 = bits := Nat.max_eq_left hbits
  constructor
  · have h := ofSize_m_le_iff.mp (Nat.le_refl (ofSize bits).m)
    rwa [hmax] at h
  · intro m hm
    rw [ofSize_m_le_iff, hmax]
    exact hm

theorem le_ofSize_n_iff (hbits : 1 ≤ bits) (k : Nat) :
    k + 2 ≤ (ofSize bits).n ↔ 2 ^ (2 * k) < bits := by
  have hm : (ofSize bits).m ≤ 2 * k + 1 ↔ 2 * max bits 1 ≤ 2 ^ (2 * k + 1) := ofSize_m_le_iff
  rw [Nat.max_eq_left hbits, Nat.pow_succ] at hm
  have hn := (paired_ofSize bits).n_eq
  omega

theorem ofSize?_eq_some_iff (hbits : 1 ≤ bits) :
    ofSize? bits = some p ↔ bits < 2 ^ 63 ∧ p = ofSize bits := by
  have hmax : max bits 1 = bits := Nat.max_eq_left hbits
  have hbound : 2 * bits < Limits.indexBound ↔ bits < 2 ^ 63 := by
    rw [Limits.indexBound]
    omega
  rw [ofSize?, hmax, Option.ite_none_right_eq_some, Option.some.injEq]
  exact and_congr hbound eq_comm

theorem ofExponents_ofSize_iff (hlow : 1 ≤ bits) (hhigh : bits < 2 ^ 63) :
    (∃ q, ofExponents (ofSize bits).m (ofSize bits).n = .ok q) ↔ 65 ≤ bits := by
  -- Only the lower end of the accepted range is ever missed.
  have hfive : 5 ≤ (ofSize bits).n ↔ 64 < bits := le_ofSize_n_iff hlow 3
  have hm : (ofSize bits).m ≤ 64 := by
    rw [ofSize_m_le_iff, Nat.max_eq_left hlow]
    omega
  have hn := (paired_ofSize bits).n_eq
  constructor
  · rintro ⟨q, hq⟩
    have hrange := (ofExponents_eq_ok_iff.mp hq).1
    omega
  · intro h
    exact ⟨_, ofExponents_eq_ok_iff.mpr ⟨⟨by omega, by omega⟩, hn, rfl⟩⟩

/-- The plan that is selected has the least exponent for which twice the operand fits, and its sizes
are sound: the blocks of an operand fill half of the transform, the weight is a root of minus one of
the right order, neither a field of the packed product nor the two moduli together overflow. From
257 bits on the blocks are whole words, and from 65 bits on the exponents are accepted. -/
theorem selection_sound (bits : Nat) (hlow : 1 ≤ bits) (hhigh : bits < 2 ^ 63) :
    ∃ p, ofSize? bits = some p ∧ IsLeast {m | 2 * bits ≤ 2 ^ m} p.m ∧ p.n = p.m / 2 + 1 ∧
      p.length * p.blockBits = 2 ^ p.m ∧
      (∀ x < 2 ^ bits, (Nat.digits (2 ^ p.blockBits) x).length ≤ p.length / 2) ∧
      (p.length ∣ 2 ^ p.n ∧ p.weightExponent * p.length = 2 ^ p.n) ∧
      p.length / 2 * (2 ^ (p.n + 2) - 1) ^ 2 < 2 ^ p.slotBits ∧
      p.length / 2 * (2 ^ p.blockBits - 1) ^ 2 < 2 ^ (p.n + 2) * (2 ^ 2 ^ p.n + 1) ∧
      (6 ≤ p.n → p.dyadicBits ≤ p.blockBits ∧ 32 * p.blockWords = p.blockBits ∧
        1 ≤ p.blockWords ∧ ∀ x : Words, significantBits x ≤ bits →
          p.blockCount (trim x).length ≤ p.length / 2) ∧
      (6 ≤ p.n ↔ 257 ≤ bits) ∧
      (∀ more q, bits ≤ more → ofSize? more = some q → p.m ≤ q.m) ∧
      ((∃ q, ofExponents p.m p.n = .ok q) ↔ 65 ≤ bits) := by
  have hpaired := paired_ofSize bits
  have hleast := isLeast_ofSize_m hlow
  refine ⟨ofSize bits, (ofSize?_eq_some_iff hlow).mpr ⟨hhigh, rfl⟩, hleast, hpaired.n_eq,
    length_mul_blockBits hpaired.n_eq, fun x => hpaired.length_digits_le hleast.1,
    ⟨length_dvd_ringBits _, weightExponent_mul_length _⟩, packed_sum_lt _,
    hpaired.block_sum_lt, ?_, le_ofSize_n_iff hlow 4, ?_, ofExponents_ofSize_iff hlow hhigh⟩
  · intro hn
    exact ⟨dyadicBits_le_blockBits hn, thirtyTwo_mul_blockWords hn, blockWords_pos hn,
      fun x => hpaired.blockCount_trim_le hleast.1 hn⟩
  · intro more q hmore hq
    obtain ⟨_, rfl⟩ := (ofSize?_eq_some_iff (hlow.trans hmore)).mp hq
    exact ofSize_m_mono hmore

/-- The least number of bits whose blocks are whole words. -/
theorem selection_sound_least :
    let p : Plan := { m := 10, n := 6 }
    ofSize? 257 = some p ∧ p.length = 32 ∧ IsLeast {m | 2 * 257 ≤ 2 ^ m} p.m ∧
      (Nat.digits (2 ^ p.blockBits) (2 ^ 257 - 1)).length ≤ p.length / 2 ∧
      p.length / 2 * (2 ^ (p.n + 2) - 1) ^ 2 < 2 ^ p.slotBits ∧ 1 ≤ p.blockWords ∧
      p.m ≤ (ofSize 1000000).m ∧ ∃ q, ofExponents p.m p.n = .ok q := by
  intro p
  have hp : ofSize? 257 = some p := by decide
  have hlen : p.length = 32 := by decide
  obtain ⟨q, hq, hleast, _, _, hdigits, _, hpacked, _, hwhole, hsix, hmono, haccepted⟩ :=
    selection_sound 257 (by decide) (by decide)
  obtain rfl : p = q := Option.some.inj (hp.symm.trans hq)
  have hblocks := hwhole (hsix.mpr (by decide))
  have hne : 2 ^ 257 ≠ 0 := pow_ne_zero 257 two_ne_zero
  exact ⟨hp, hlen, hleast, hdigits _ (Nat.sub_one_lt hne), hpacked, hblocks.2.2.1,
    hmono 1000000 _ (by decide) (by decide), haccepted.mpr (by decide)⟩

end FermatMul.Plan
