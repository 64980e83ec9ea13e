import FermatMul.Proofs.Residue.Checked

namespace FermatMul.Residue

open FermatMul.Words

variable {half : Nat} {a b : Words}

/-- The canonical vector of minus one, the only one with a word in its high half. -/
def minusOne (half : Nat) : Words := zeros half ++ 1 :: zeros (half - 1)

theorem length_minusOne (hhalf : half ≠ 0) : (minusOne half).length = 2 * half := by
  rw [minusOne, List.length_append, List.length_cons, length_zeros, length_zeros]
  omega

theorem toNat_minusOne (half : Nat) : toNat (minusOne half) = 2 ^ (32 * half) := by
  rw [minusOne, toNat_list_append, toNat_cons, toNat_zeros, toNat_zeros, length_zeros,
    Nat.zero_add, Nat.mul_zero, Nat.add_zero, UInt32.toNat_one, Nat.mul_one]

theorem Canonical.toNat_eq_iff (hhalf : half ≠ 0) (h : Canonical half a) :
    toNat a = 2 ^ (32 * half) ↔ a = minusOne half := by
  rw [← toNat_minusOne]
  constructor
  · exact eq_of_toNat_eq (h.length_eq.trans (length_minusOne hhalf).symm)
  · exact congrArg toNat

theorem Canonical.exists_high_iff (hhalf : half ≠ 0) (h : Canonical half a) :
    (∃ w ∈ a.drop half, w ≠ 0) ↔ toNat a = 2 ^ (32 * half) := by
  constructor
  · rintro ⟨w, hw, hne⟩
    have hhigh : toNat a / 2 ^ (32 * half) ≠ 0 := by
      rw [← toNat_drop]
      intro hzero
      exact hne (eq_zero_of_toNat_eq_zero hzero w hw)
    exact le_antisymm h.toNat_le (Nat.div_ne_zero_iff.mp hhigh).2
  · intro htop
    rw [(h.toNat_eq_iff hhalf).mp htop, minusOne, List.drop_left' (length_zeros half)]
    exact ⟨1, List.mem_cons_self, by decide⟩

/-- Reduction refuses the vectors without two halves. On all others it gives the least number of the
residue, whose high half is zero but for minus one. So it fixes its own results and the canonical
vectors only, and two vectors are reduced to one exactly if they stand for the same residue. -/
theorem reduction_normal (a : Words) :
    (a.length = 0 ∨ a.length % 2 = 1 → ∃ e, reduce a = .error e ∧ e.kind = .invalidArgument) ∧
    ∀ half, half ≠ 0 → a.length = 2 * half →
      (∃ c, reduce a = .ok c ∧ c.length = 2 * half ∧
        (toNat c : Int) = value a % (2 ^ (32 * half) + 1) ∧ toNat c ≤ 2 ^ (32 * half) ∧
        ((∃ w ∈ c.drop half, w ≠ 0) ↔ toNat c = 2 ^ (32 * half)) ∧
        (toNat c = 2 ^ (32 * half) ↔ c = zeros half ++ 1 :: zeros (half - 1)) ∧
        reduce c = .ok c) ∧
      (reduce a = .ok a ↔ toNat a ≤ 2 ^ (32 * half)) ∧
      ∀ b, b.length = 2 * half →
        (reduce a = reduce b ↔ value a ≡ value b [ZMOD 2 ^ (32 * half) + 1]) := by
  constructor
  · intro hshape
    exact ⟨_, reduce_eq_error (by omega), rfl⟩
  · intro half hhalf ha
    have hcanonical := canonical_fold ha
    refine ⟨⟨fold a, reduce_eq hhalf ha, hcanonical.length_eq, toNat_fold_eq_emod ha,
      hcanonical.toNat_le, hcanonical.exists_high_iff hhalf, hcanonical.toNat_eq_iff hhalf, ?_⟩,
      ?_, ?_⟩
    · rw [reduce_eq hhalf hcanonical.length_eq, fold_fold ha]
    · rw [reduce_eq hhalf ha, Except.ok.injEq, fold_eq_self_iff ha]
    · intro b hb
      rw [reduce_eq hhalf ha, reduce_eq hhalf hb, Except.ok.injEq, fold_eq_fold_iff_modEq ha hb]

/-- Reducing `2 ^ 64` borrows, and the repair carries through the low half to give it back. -/
theorem reduction_normal_pair :
    reduce [0, 0, 1, 0] = .ok [0, 0, 1, 0] ∧
      (∃ c, reduce [7, 0, 0xffffffff, 0] = .ok c ∧ reduce c = .ok c ∧
        (toNat c : Int) = 9 - 2 ^ 32 + 2 ^ 64) ∧
      reduce [7, 0, 0xffffffff, 0] = reduce [8, 0, 0, 1] ∧
      ∃ e, reduce [1, 2, 3] = .error e ∧ e.kind = .invalidArgument := by
  obtain ⟨_, htop⟩ := reduction_normal [0, 0, 1, 0]
  obtain ⟨_, hpair⟩ := reduction_normal [7, 0, 0xffffffff, 0]
  obtain ⟨hodd, _⟩ := reduction_normal [1, 2, 3]
  obtain ⟨⟨c, hc, _, hvalue, _, _, _, hagain⟩, _, hsame⟩ := hpair 2 (by decide) rfl
  refine ⟨?_, ⟨c, hc, hagain, hvalue.trans (by decide)⟩, ?_, hodd (by decide)⟩
  · exact (htop 2 (by decide) rfl).2.1.mpr (by decide)
  · exact (hsame [8, 0, 0, 1] rfl).mpr (by decide)

end FermatMul.Residue
