import FermatMul.Proofs.Fourier.Checked

namespace FermatMul.Fourier

open Finset
open FermatMul.Residue FermatMul.Words

variable {m n : Nat} {p : Plan} {xs : List Words}

/-- The residues of an array. -/
def residues (modulus len : Nat) (xs : List Words) : Fin len → ZMod modulus :=
  fun i => (value (xs.getD i []) : ZMod modulus)

theorem residues_eq {half len : Nat} (h : Shaped half len xs) :
    residues (2 ^ (32 * half) + 1) len xs =
      fun i : Fin len => residueAt half xs i := by
  funext i
  rw [residues, residueAt_eq_value h i.isLt, eq_intCast]

theorem exists_residues {half len : Nat} (hhalf : half ≠ 0) (v : Fin len → FermatRing half) :
    ∃ xs, Shaped half len xs ∧ residues (2 ^ (32 * half) + 1) len xs = v := by
  have hvector : ∀ i, ∃ a : Words, a.length = 2 * half ∧ toNat a = (v i).val := fun i => by
    apply exists_toNat_eq
    have hval : (v i).val < 2 ^ (32 * half) + 1 := ZMod.val_lt (v i)
    have hgrow : 2 ^ (32 * half) < 2 ^ (32 * (2 * half)) :=
      Nat.pow_lt_pow_right (by omega) (by omega)
    omega
  choose a haLen haValue using hvector
  have hshape : Shaped half len (List.ofFn a) := by
    refine ⟨List.length_ofFn, fun b hb => ?_⟩
    obtain ⟨i, rfl⟩ := List.mem_ofFn.mp hb
    exact haLen i
  refine ⟨List.ofFn a, hshape, ?_⟩
  rw [residues_eq hshape]
  funext i
  have hget : (List.ofFn a)[i.val]? = some (a i) := by
    rw [List.getElem?_ofFn, dif_pos i.isLt]
  rw [residueAt_eq hget, residue, haValue, ZMod.natCast_zmod_val]

/-- The values at the odd powers of the weight of the polynomial with the given coefficients. -/
def values (p : Plan) (v : Fin p.length → FermatRing p.ringWords) :
    Fin p.length → FermatRing p.ringWords :=
  fun i => ∑ j, v j * p.weight ^ (j.val * (2 * i.val + 1))

theorem values_residues (hn : 5 ≤ p.n) (h : Shaped p.ringWords p.length xs) :
    values p (fun j : Fin p.length => residueAt p.ringWords xs j) =
      fun i : Fin p.length => residueAt p.ringWords (evaluate p xs) i := by
  funext i
  rw [values, residueAt_evaluate hn h i.isLt]
  exact Fin.sum_univ_eq_sum_range
    (fun j => residueAt p.ringWords xs j * p.weight ^ (j * (2 * i.val + 1))) p.length

/-- The values determine the coefficients: the powers of the weight are orthogonal, and two is
invertible. -/
theorem values_injective (hn : 5 ≤ p.n) : Function.Injective (values p) := by
  let coefficient := fun (v : Fin p.length → FermatRing p.ringWords) (j : Nat) =>
    if h : j < p.length then v ⟨j, h⟩ else 0
  have hvalues : ∀ v (i : Fin p.length), values p v i =
      ∑ j ∈ range p.length, coefficient v j * p.weight ^ (j * (2 * i.val + 1)) := by
    intro v i
    rw [← Fin.sum_univ_eq_sum_range
      (fun j => coefficient v j * p.weight ^ (j * (2 * i.val + 1)))]
    exact sum_congr rfl fun j _ => by simp only [coefficient, dif_pos j.isLt]
  intro v w heq
  funext j
  have hread : ∀ u, 2 ^ p.logLength * (p.weight ^ j.val * u j) =
      ∑ i ∈ range p.length,
        (if h : i < p.length then values p u ⟨i, h⟩ else 0) *
          (p.weight ^ 2) ^ (i * (p.length - j.val)) := by
    intro u
    have h := sum_evaluation_mul_pow (Plan.weight_pow_length hn) (coefficient u) j.isLt
    simp only [coefficient, dif_pos j.isLt] at h
    refine h.symm.trans (sum_congr rfl fun i hi => ?_)
    rw [dif_pos (mem_range.mp hi), hvalues]
    rfl
  have hsame : 2 ^ p.logLength * (p.weight ^ j.val * v j) =
      2 ^ p.logLength * (p.weight ^ j.val * w j) := by
    rw [hread v, hread w, heq]
  exact Plan.scale_cancel hn hsame

/-- On residues the transform is a bijection, and interpolation is its inverse. -/
theorem exists_equiv (hn : 5 ≤ p.n) :
    ∃ e : (Fin p.length → FermatRing p.ringWords) ≃ (Fin p.length → FermatRing p.ringWords),
      ∀ xs, Shaped p.ringWords p.length xs →
        (fun i : Fin p.length => residueAt p.ringWords (evaluate p xs) i) =
          e (fun i => residueAt p.ringWords xs i) ∧
        (fun i : Fin p.length => residueAt p.ringWords (interpolate p xs) i) =
          e.symm (fun i => residueAt p.ringWords xs i) := by
  have hbijective := Finite.injective_iff_bijective.mp (values_injective hn)
  refine ⟨Equiv.ofBijective (values p) hbijective, fun xs h => ⟨?_, ?_⟩⟩
  · rw [Equiv.ofBijective_apply, values_residues hn h]
  · rw [Equiv.eq_symm_apply, Equiv.ofBijective_apply, values_residues hn (shaped_interpolate h)]
    funext i
    exact residueAt_evaluate_interpolate hn h i.isLt

/-- The transform and interpolation undo each other up to the choice of vectors, for every accepted
pair of exponents. On arrays of residues they are inverse bijections. -/
theorem transforms_inverse (hp : Plan.ofExponents m n = .ok p) :
    (∀ xs, Shaped p.ringWords p.length xs →
      (evaluateAt m n xs >>= interpolateAt m n) = reduceAll xs ∧
      (interpolateAt m n xs >>= evaluateAt m n >>= reduceAll) = reduceAll xs ∧
      reduceAll xs = .ok (xs.map fold) ∧
      ((∀ a ∈ xs, toNat a ≤ 2 ^ 2 ^ n) → reduceAll xs = .ok xs)) ∧
    (∀ v, ∃ xs, Shaped p.ringWords p.length xs ∧ residues (2 ^ 2 ^ n + 1) p.length xs = v) ∧
    ∃ e : (Fin p.length → ZMod (2 ^ 2 ^ n + 1)) ≃ (Fin p.length → ZMod (2 ^ 2 ^ n + 1)),
      ∀ xs, Shaped p.ringWords p.length xs →
        ∃ fx gx, evaluateAt m n xs = .ok fx ∧ interpolateAt m n xs = .ok gx ∧
          residues _ p.length fx = e (residues _ p.length xs) ∧
          residues _ p.length gx = e.symm (residues _ p.length xs) := by
  have hn := five_le_of_ofExponents hp
  have hne : p.ringWords ≠ 0 := Plan.ringWords_ne_zero hn
  rw [← two_pow_ringWords hp]
  refine ⟨fun xs h => ⟨?_, ?_, reduceAll_eq hne h, ?_⟩, exists_residues hne, ?_⟩
  · rw [evaluateAt_eq hp h, reduceAll_eq hne h, ← interpolate_evaluate hn h]
    exact interpolateAt_eq hp (shaped_evaluate h)
  · have hshape := shaped_interpolate h
    rw [interpolateAt_eq hp h, reduceAll_eq hne h, ← map_fold_evaluate_interpolate hn h,
      ← reduceAll_eq hne (shaped_evaluate hshape)]
    change (evaluateAt m n (interpolate p xs) >>= reduceAll) = _
    rw [evaluateAt_eq hp hshape]
    rfl
  · intro hcanonical
    rw [reduceAll_eq hne h, map_fold_eq_self fun a ha => ⟨h.width_eq a ha, hcanonical a ha⟩]
  · obtain ⟨e, he⟩ := exists_equiv hn
    refine ⟨e, fun xs h => ⟨evaluate p xs, interpolate p xs, evaluateAt_eq hp h,
      interpolateAt_eq hp h, ?_, ?_⟩⟩
    · rw [residues_eq (shaped_evaluate h), residues_eq h]
      exact (he xs h).1
    · rw [residues_eq (shaped_interpolate h), residues_eq h]
      exact (he xs h).2

theorem transforms_inverse_sixteen :
    (evaluateAt 8 5 ([5, 2] :: List.replicate 15 [0, 1]) >>= interpolateAt 8 5) =
      .ok ([3, 0] :: List.replicate 15 [0, 1]) := by
  have h := (transforms_inverse (m := 8) (n := 5) (p := ⟨8, 5⟩) rfl).1
    ([5, 2] :: List.replicate 15 [0, 1]) ⟨by decide, by decide⟩
  exact (h.1.trans h.2.2.1).trans (by decide +kernel)

end FermatMul.Fourier
