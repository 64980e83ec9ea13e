import FermatMul.Proofs.Product.Exactness
import FermatMul.Residue.Product

namespace FermatMul.Residue

open FermatMul.Words

variable {half : Nat} {a b : Words}

theorem requireShape_eq (op : ResidueOp) (hhalf : half ≠ 0) (ha : a.length = 2 * half) :
    requireShape op a = .ok () := by
  rw [requireShape, if_pos (by omega)]

theorem requirePair_bind (op : ResidueOp) (hhalf : half ≠ 0) (ha : a.length = 2 * half)
    (hb : b.length = 2 * half) (c : Words) :
    (requirePair op a b >>= fun _ => .ok c) = .ok c := by
  rw [requirePair, requireShape_eq op hhalf ha, if_pos (ha.trans hb.symm)]
  rfl

theorem requirePair_bind_error (op : ResidueOp) (hhalf : half ≠ 0) (ha : a.length = 2 * half)
    (hb : b.length ≠ 2 * half) (c : Words) :
    (requirePair op a b >>= fun _ => .ok c) = .error (.lengthMismatch op a.length b.length) := by
  rw [requirePair, requireShape_eq op hhalf ha, if_neg fun h => hb (h.symm.trans ha)]
  rfl

/-- Operands of one length that is even and not zero are the only ones that pass. -/
theorem requirePair_bind_refused (op : ResidueOp)
    (h : a.length ≠ b.length ∨ a.length = 0 ∨ a.length % 2 = 1) (c : Words) :
    ∃ e, (requirePair op a b >>= fun _ => .ok c) = .error e ∧ e.kind = .invalidArgument := by
  by_cases hshape : a.length ≠ 0 ∧ a.length % 2 = 0
  · obtain ⟨half, ha⟩ : ∃ half, a.length = 2 * half := ⟨a.length / 2, by omega⟩
    exact ⟨_, requirePair_bind_error op (by omega) ha (by omega) c, rfl⟩
  · rw [requirePair, requireShape, if_neg hshape]
    exact ⟨_, rfl, rfl⟩

theorem reduce_eq (hhalf : half ≠ 0) (ha : a.length = 2 * half) : reduce a = .ok (fold a) := by
  rw [reduce, requireShape_eq .reduce hhalf ha]
  rfl

theorem reduce_eq_error (h : ¬ (a.length ≠ 0 ∧ a.length % 2 = 0)) :
    reduce a = .error (.residueShape .reduce a.length) := by
  rw [reduce, requireShape, if_neg h]
  rfl

theorem add_eq (hhalf : half ≠ 0) (ha : a.length = 2 * half) (hb : b.length = 2 * half) :
    add a b = .ok (addWrap a b) :=
  requirePair_bind .add hhalf ha hb _

theorem sub_eq (hhalf : half ≠ 0) (ha : a.length = 2 * half) (hb : b.length = 2 * half) :
    sub a b = .ok (subWrap a b) :=
  requirePair_bind .sub hhalf ha hb _

theorem mul_eq (hhalf : half ≠ 0) (ha : a.length = 2 * half) (hb : b.length = 2 * half) :
    mul a b = .ok (mulCanonical {} (fold a) (fold b)) :=
  requirePair_bind .mul hhalf ha hb _

theorem toNat_mulCanonical (t : Tuning) (ha : Canonical half a) (hb : Canonical half b) :
    toNat (mulCanonical t a b) =
      if isMinusOne a && isMinusOne b then 1 else toNat a * toNat b := by
  rw [mulCanonical, half_eq ha.length_eq]
  exact (Product.multiply_isProduct t (a.take half) (b.take half)).toNat_foldSigns ha hb

theorem mulCanonical_spec (t : Tuning) (ha : Canonical half a) (hb : Canonical half b) :
    (mulCanonical t a b).length = 2 * half ∧
      residue half (mulCanonical t a b) = residue half a * residue half b := by
  rw [mulCanonical, half_eq ha.length_eq]
  exact (Product.multiply_isProduct t (a.take half) (b.take half)).foldSigns_spec ha hb

theorem mulCanonical_fold_spec (t : Tuning) (ha : a.length = 2 * half)
    (hb : b.length = 2 * half) :
    (mulCanonical t (fold a) (fold b)).length = 2 * half ∧
      residue half (mulCanonical t (fold a) (fold b)) = residue half a * residue half b := by
  rw [← residue_fold ha, ← residue_fold hb]
  exact mulCanonical_spec t (canonical_fold ha) (canonical_fold hb)

end FermatMul.Residue
