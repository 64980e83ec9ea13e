import FermatMul.Proofs.Residue.Checked

namespace FermatMul.Residue

open FermatMul.Words

variable {half : Nat} {a b : Words}

theorem value_mulCanonical_modEq (t : Tuning) (ha : a.length = 2 * half)
    (hb : b.length = 2 * half) :
    value (mulCanonical t (fold a) (fold b)) ≡ value a * value b
      [ZMOD 2 ^ (32 * half) + 1] := by
  obtain ⟨hlen, hresidue⟩ := mulCanonical_fold_spec t ha hb
  rw [residue_eq_value hlen, residue_eq_value ha, residue_eq_value hb, ← Int.cast_mul,
    intCast_eq_iff] at hresidue
  exact hresidue

theorem toNat_mulCanonical_fold (t : Tuning) (ha : a.length = 2 * half)
    (hb : b.length = 2 * half) :
    (toNat (mulCanonical t (fold a) (fold b)) : Int) =
      if value a % (2 ^ (32 * half) + 1) = 2 ^ (32 * half) ∧
          value b % (2 ^ (32 * half) + 1) = 2 ^ (32 * half) then 1
      else value a % (2 ^ (32 * half) + 1) * (value b % (2 ^ (32 * half) + 1)) := by
  have hboth : (isMinusOne (fold a) && isMinusOne (fold b)) = true ↔
      value a % (2 ^ (32 * half) + 1) = 2 ^ (32 * half) ∧
        value b % (2 ^ (32 * half) + 1) = 2 ^ (32 * half) := by
    rw [Bool.and_eq_true, isMinusOne_fold_iff ha, isMinusOne_fold_iff hb]
  rw [toNat_mulCanonical t (canonical_fold ha) (canonical_fold hb), Nat.cast_ite, Nat.cast_one,
    Nat.cast_mul, toNat_fold_eq_emod ha, toNat_fold_eq_emod hb]
  exact if_congr hboth rfl rfl

theorem mul_eq_mul (hhalf : half ≠ 0) {a' b' : Words} (ha : a.length = 2 * half)
    (hb : b.length = 2 * half) (ha' : a'.length = 2 * half) (hb' : b'.length = 2 * half)
    (hvalueA : value a' ≡ value a [ZMOD 2 ^ (32 * half) + 1])
    (hvalueB : value b' ≡ value b [ZMOD 2 ^ (32 * half) + 1]) : mul a' b' = mul a b := by
  rw [mul_eq hhalf ha' hb', mul_eq hhalf ha hb, (fold_eq_fold_iff_modEq ha' ha).mpr hvalueA,
    (fold_eq_fold_iff_modEq hb' hb).mpr hvalueB]

/-- Operands are refused if their lengths differ, or are zero or odd. Of all others, whatever
vectors stand for the residues, the product has their length and stands for the product of the
residues, and reducing it gives the canonical product. The vector is the product of the two
canonical numbers, or one where both are minus one, and so the same for all vectors of the same
residues. -/
theorem multiplication_exact (a b : Words) :
    ((∃ e, mul a b = .error e ∧ e.kind = .invalidArgument) ↔
      a.length ≠ b.length ∨ a.length = 0 ∨ a.length % 2 = 1) ∧
    ∀ half, half ≠ 0 → a.length = 2 * half → b.length = 2 * half →
      let top : Int := 2 ^ (32 * half)
      ∃ c, mul a b = .ok c ∧ c.length = 2 * half ∧
        value c ≡ value a * value b [ZMOD top + 1] ∧
        (∃ r, reduce c = .ok r ∧ r.length = 2 * half ∧
          (toNat r : Int) = value a * value b % (top + 1)) ∧
        (toNat c : Int) =
          (if value a % (top + 1) = top ∧ value b % (top + 1) = top then 1
          else value a % (top + 1) * (value b % (top + 1))) ∧
        ∀ a' b', a'.length = 2 * half → b'.length = 2 * half →
          value a' ≡ value a [ZMOD top + 1] → value b' ≡ value b [ZMOD top + 1] →
            mul a' b' = .ok c := by
  constructor
  · constructor
    · rintro ⟨e, he, _⟩
      -- The product cannot fail for any other reason: on two halves it is a vector.
      by_contra hfits
      obtain ⟨half, hhalf, ha⟩ : ∃ half, half ≠ 0 ∧ a.length = 2 * half :=
        ⟨a.length / 2, by omega, by omega⟩
      rw [mul_eq hhalf ha (by omega)] at he
      cases he
    · intro h
      exact requirePair_bind_refused .mul h _
  · intro half hhalf ha hb top
    have hlen := (mulCanonical_fold_spec {} ha hb).1
    have hvalue := value_mulCanonical_modEq {} ha hb
    refine ⟨_, mul_eq hhalf ha hb, hlen, hvalue, ⟨_, reduce_eq hhalf hlen, ?_, ?_⟩,
      toNat_mulCanonical_fold {} ha hb, ?_⟩
    · rw [length_fold, hlen]
    · rw [toNat_fold_eq_emod hlen]
      exact hvalue
    · intro a' b' ha' hb' hvalueA hvalueB
      rw [mul_eq_mul hhalf ha hb ha' hb' hvalueA hvalueB, mul_eq hhalf ha hb]

/-- Three times minus one, and minus one times itself. -/
theorem multiplication_exact_word :
    (∃ c, mul [5, 2] [0, 1] = .ok c ∧ (toNat c : Int) = 3 * 2 ^ 32 ∧
      mul [3, 0] [7, 8] = .ok c ∧ ∃ r, reduce c = .ok r ∧ (toNat r : Int) = 2 ^ 32 - 2) ∧
    (∃ c, mul [0, 1] [3, 4] = .ok c ∧ (toNat c : Int) = 1) ∧
    ∃ e, mul [1, 0] [1] = .error e ∧ e.kind = .invalidArgument := by
  refine ⟨?_, ?_, (multiplication_exact [1, 0] [1]).1.mpr (by decide)⟩
  · obtain ⟨c, hc, _, _, ⟨r, hr, _, hreduced⟩, hvalue, hsame⟩ :=
      (multiplication_exact [5, 2] [0, 1]).2 1 (by decide) rfl rfl
    have hsimilar := hsame [3, 0] [7, 8] rfl rfl (by decide) (by decide)
    exact ⟨c, hc, hvalue.trans (by decide), hsimilar, r, hr, hreduced.trans (by decide)⟩
  · obtain ⟨c, hc, _, _, _, hvalue, _⟩ :=
      (multiplication_exact [0, 1] [3, 4]).2 1 (by decide) rfl rfl
    exact ⟨c, hc, hvalue.trans (by decide)⟩

end FermatMul.Residue
