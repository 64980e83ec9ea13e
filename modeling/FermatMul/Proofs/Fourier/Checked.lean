import FermatMul.Proofs.Fourier.Inversion
import FermatMul.Proofs.Residue.Checked
import FermatMul.Proofs.Traversal

namespace FermatMul

theorem Plan.ofExponents_eq_ok_iff {m n : Nat} {p : Plan} :
    Plan.ofExponents m n = .ok p ↔ (5 ≤ n ∧ n ≤ 40) ∧ n = m / 2 + 1 ∧ p = ⟨m, n⟩ := by
  rw [Plan.ofExponents]
  by_cases hrange : Limits.minExponent ≤ n ∧ n ≤ Limits.maxExponent
  · rw [if_neg (not_not.mpr hrange)]
    by_cases hpair : n = m / 2 + 1
    · rw [if_neg (not_not.mpr hpair), Except.ok.injEq]
      refine ⟨fun h => ⟨hrange, hpair, h.symm⟩, ?_⟩
      rintro ⟨_, _, h⟩
      exact h.symm
    · rw [if_pos hpair]
      refine ⟨fun h => (nomatch h), ?_⟩
      rintro ⟨_, h, _⟩
      exact absurd h hpair
  · rw [if_pos hrange]
    refine ⟨fun h => (nomatch h), ?_⟩
    rintro ⟨h, _⟩
    exact absurd h hrange

theorem Plan.kind_of_ofExponents_eq_error {m n : Nat} {e : Refusal}
    (h : Plan.ofExponents m n = .error e) : e.kind = .invalidArgument := by
  rw [Plan.ofExponents] at h
  split at h
  · cases h
    rfl
  · split at h
    · cases h
      rfl
    · cases h

namespace Fourier

open FermatMul.Residue FermatMul.Words

variable {m n half len : Nat} {p : Plan} {xs ys : List Words}

theorem five_le_of_ofExponents (hp : Plan.ofExponents m n = .ok p) : 5 ≤ p.n := by
  obtain ⟨⟨hn, _⟩, _, rfl⟩ := Plan.ofExponents_eq_ok_iff.mp hp
  exact hn

theorem two_pow_ringWords (hp : Plan.ofExponents m n = .ok p) :
    32 * p.ringWords = 2 ^ n := by
  rw [Plan.thirtyTwo_mul_ringWords (five_le_of_ofExponents hp)]
  obtain ⟨_, _, rfl⟩ := Plan.ofExponents_eq_ok_iff.mp hp
  rfl

theorem requireShape_eq_ok_iff :
    Fourier.requireShape p xs = .ok () ↔ Shaped p.ringWords p.length xs := by
  have hwidth : xs.all (·.length == p.residueWords) = true ↔
      ∀ a ∈ xs, a.length = 2 * p.ringWords := by
    simp only [List.all_eq_true, beq_iff_eq, Plan.residueWords]
  rw [Fourier.requireShape]
  by_cases hlen : xs.length = p.length
  · rw [if_neg (not_not.mpr hlen)]
    by_cases hall : xs.all (·.length == p.residueWords) = true
    · rw [if_pos hall]
      exact iff_of_true rfl ⟨hlen, hwidth.mp hall⟩
    · rw [if_neg hall]
      exact iff_of_false (by simp) fun h => hall (hwidth.mpr h.width_eq)
  · rw [if_pos hlen]
    exact iff_of_false (by simp) fun h => hlen h.length_eq

theorem kind_of_requireShape_eq_error {e : Refusal}
    (h : Fourier.requireShape p xs = .error e) : e.kind = .invalidArgument := by
  rw [Fourier.requireShape] at h
  split at h
  · cases h
    rfl
  · split at h
    · cases h
    · cases h
      rfl

theorem evaluateAt_eq (hp : Plan.ofExponents m n = .ok p)
    (h : Shaped p.ringWords p.length xs) : evaluateAt m n xs = .ok (evaluate p xs) := by
  rw [evaluateAt, hp]
  change (Fourier.requireShape p xs >>= fun _ => .ok (evaluate p xs)) = _
  rw [requireShape_eq_ok_iff.mpr h]
  rfl

theorem interpolateAt_eq (hp : Plan.ofExponents m n = .ok p)
    (h : Shaped p.ringWords p.length xs) : interpolateAt m n xs = .ok (interpolate p xs) := by
  rw [interpolateAt, hp]
  change (Fourier.requireShape p xs >>= fun _ => .ok (interpolate p xs)) = _
  rw [requireShape_eq_ok_iff.mpr h]
  rfl

theorem reduceAll_eq (hhalf : half ≠ 0) (h : Shaped half len xs) :
    reduceAll xs = .ok (xs.map fold) :=
  mapM_eq_pure fun a ha => reduce_eq hhalf (h.width_eq a ha)

theorem residueAt_eq_value {i : Nat} (h : Shaped half len xs) (hi : i < len) :
    residueAt half xs i = Int.castRingHom (FermatRing half) (value (xs.getD i [])) := by
  obtain ⟨a, ha, haLen⟩ := h.exists_getElem? hi
  rw [residueAt_eq ha, residue_eq_value haLen, List.getD_eq_getElem?_getD, ha, Option.getD_some]
  rfl

end Fourier

end FermatMul
