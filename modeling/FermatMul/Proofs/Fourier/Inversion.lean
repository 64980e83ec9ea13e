import FermatMul.Proofs.Plan.Ring

namespace FermatMul.Fourier

open Finset
open FermatMul.Words FermatMul.Residue FermatMul.BitReversal

variable {p : Plan} {i j : Nat} {xs ys zs : List Words}

theorem shaped_permute {half k : Nat} (h : Shaped half (2 ^ k) xs) :
    Shaped half (2 ^ k) (permute xs.toArray).toList where
  length_eq := by simp [h.length_eq]
  width_eq a ha := by
    obtain ⟨i, hi⟩ := List.mem_iff_getElem?.mp ha
    have hi' : i < 2 ^ k := by
      have := (List.getElem?_eq_some_iff.mp hi).1
      simpa [h.length_eq] using this
    rw [Array.getElem?_toList, getElem?_permute (by simp [h.length_eq]) hi',
      List.getElem?_toArray] at hi
    exact h.width_eq a (List.mem_of_getElem? hi)

theorem residueAt_permute {half k : Nat} (h : Shaped half (2 ^ k) xs) (hi : i < 2 ^ k) :
    residueAt half (permute xs.toArray).toList i = residueAt half xs (reversed k i) := by
  apply residueAt_congr
  rw [Array.getElem?_toList, getElem?_permute (by simp [h.length_eq]) hi, List.getElem?_toArray]

theorem shaped_cyclic (h : Shaped p.ringWords p.length xs) :
    Shaped p.ringWords p.length (cyclic p xs) :=
  shaped_cascade (shaped_permute h)

theorem residueAt_cyclic (hn : 5 ≤ p.n) (h : Shaped p.ringWords p.length xs)
    (hi : i < p.length) :
    residueAt p.ringWords (cyclic p xs) i =
      ∑ j ∈ range p.length, residueAt p.ringWords xs j * (p.weight ^ 2) ^ (i * j) := by
  have hcascade := residueAt_cascade (Plan.length_dvd hn) (shaped_permute h) hi
  rw [Plan.root_eq_weight_sq hn] at hcascade
  refine hcascade.trans (sum_congr rfl fun j hj => ?_)
  rw [residueAt_permute h (reversed_lt _ j), reversed_reversed (mem_range.mp hj)]

theorem getElem?_mapIdx_of {f : Nat → Words → Words} {a : Words} (h : xs[i]? = some a) :
    (xs.mapIdx f)[i]? = some (f i a) := by
  rw [List.getElem?_mapIdx, h]
  rfl

theorem shaped_mapIdx {half len : Nat} {f : Nat → Words → Words}
    (hf : ∀ i a, (f i a).length = a.length) (h : Shaped half len xs) :
    Shaped half len (xs.mapIdx f) where
  length_eq := by rw [List.length_mapIdx, h.length_eq]
  width_eq a ha := by
    obtain ⟨i, hi, rfl⟩ := List.mem_mapIdx.mp ha
    rw [hf, h.width_eq _ (List.getElem_mem hi)]

theorem shaped_weighted (h : Shaped p.ringWords p.length xs) :
    Shaped p.ringWords p.length (xs.mapIdx fun j a => rotateLeft a (j * p.weightExponent)) :=
  shaped_mapIdx (fun _ _ => length_rotateLeft _ _) h

theorem shaped_evaluate (h : Shaped p.ringWords p.length xs) :
    Shaped p.ringWords p.length (evaluate p xs) :=
  shaped_cyclic (shaped_weighted h)

/-- Output `i` of the transform is the value of the polynomial at an odd power of the weight. -/
theorem residueAt_evaluate (hn : 5 ≤ p.n) (h : Shaped p.ringWords p.length xs)
    (hi : i < p.length) :
    residueAt p.ringWords (evaluate p xs) i =
      ∑ j ∈ range p.length, residueAt p.ringWords xs j * p.weight ^ (j * (2 * i + 1)) := by
  rw [evaluate, residueAt_cyclic hn (shaped_weighted h) hi]
  apply sum_congr rfl
  intro j hj
  obtain ⟨a, ha, haLen⟩ := h.exists_getElem? (mem_range.mp hj)
  rw [residueAt_eq (getElem?_mapIdx_of ha), residueAt_eq ha, residue_rotateLeft haLen,
    Plan.two_pow_mul_weightExponent hn, pow_mul_odd]
  ring

theorem getElem?_reflect_succ {α : Type} {xs : List α} {n i : Nat} (hlen : xs.length = n + 1)
    (hi : i < n) : (reflect xs)[i + 1]? = xs[n - i]? := by
  cases xs with
  | nil => simp at hlen
  | cons x xs =>
      have hlen' : xs.length = n := by simpa using hlen
      rw [reflect, List.getElem?_cons_succ, List.getElem?_reverse (by omega), hlen']
      obtain ⟨m, hm⟩ : ∃ m, n - i = m + 1 := ⟨n - i - 1, by omega⟩
      rw [hm, List.getElem?_cons_succ]
      congr 1
      omega

theorem shaped_reflect {half len : Nat} (h : Shaped half len xs) :
    Shaped half len (reflect xs) := by
  cases xs with
  | nil => exact h
  | cons x xs =>
      refine ⟨?_, fun a ha => h.width_eq a ?_⟩
      · rw [← h.length_eq, reflect, List.length_cons, List.length_reverse, List.length_cons]
      · simpa [reflect] using ha

theorem residueAt_cyclic_reflect (hn : 5 ≤ p.n) (h : Shaped p.ringWords p.length xs)
    (hj : j < p.length) :
    residueAt p.ringWords (cyclic p (reflect xs)) j =
      ∑ i ∈ range p.length,
        residueAt p.ringWords xs i * (p.weight ^ 2) ^ (i * (p.length - j)) := by
  rw [residueAt_cyclic hn (shaped_reflect h) hj]
  obtain ⟨m, hm⟩ : ∃ m, p.length = m + 1 := ⟨p.length - 1, by have := p.length_pos; omega⟩
  have hperiod : (p.weight ^ 2) ^ (m + 1) = 1 := by
    rw [← hm]
    exact sq_pow_eq_one (Plan.weight_pow_length hn)
  have hlen : xs.length = m + 1 := by rw [h.length_eq, hm]
  have hfirst : residueAt p.ringWords (reflect xs) 0 = residueAt p.ringWords xs 0 := by
    cases xs with
    | nil => rfl
    | cons x xs => rfl
  rw [hm, sum_range_succ', sum_range_succ' (fun i => residueAt p.ringWords xs i * _), hfirst,
    Nat.mul_zero, Nat.zero_mul, ← sum_range_reflect (fun i => residueAt p.ringWords xs (i + 1) * _)]
  congr 1
  apply sum_congr rfl
  intro i hi
  have him : i < m := mem_range.mp hi
  have hindex : m - 1 - i + 1 = m + 1 - (i + 1) := by omega
  have hback : m + 1 - (m + 1 - (i + 1)) = i + 1 := by omega
  rw [residueAt_congr (getElem?_reflect_succ hlen him), hindex,
    pow_mul_sub_comm hperiod (by omega : m + 1 - (i + 1) ≤ m + 1) (by omega : j ≤ m + 1), hback]
  congr 2
  omega

theorem shaped_interpolate (h : Shaped p.ringWords p.length xs) :
    Shaped p.ringWords p.length (interpolate p xs) :=
  shaped_mapIdx (fun _ _ => by rw [length_fold, length_rotateRight])
    (shaped_cyclic (shaped_reflect h))

theorem canonical_interpolate (h : Shaped p.ringWords p.length xs) :
    ∀ a ∈ interpolate p xs, Canonical p.ringWords a := by
  intro a ha
  obtain ⟨i, hi, rfl⟩ := List.mem_mapIdx.mp ha
  apply canonical_fold
  rw [length_rotateRight, (shaped_cyclic (shaped_reflect h)).width_eq _ (List.getElem_mem hi)]

/-- Interpolation solves for the coefficients of the weighted transform read backwards. -/
theorem residueAt_interpolate (hn : 5 ≤ p.n) (h : Shaped p.ringWords p.length xs)
    (hj : j < p.length) :
    2 ^ p.logLength * (p.weight ^ j * residueAt p.ringWords (interpolate p xs) j) =
      ∑ i ∈ range p.length,
        residueAt p.ringWords xs i * (p.weight ^ 2) ^ (i * (p.length - j)) := by
  obtain ⟨a, ha, haLen⟩ := (shaped_cyclic (shaped_reflect h)).exists_getElem? hj
  have hturn : (2 : FermatRing p.ringWords) ^ (p.logLength + j * p.weightExponent) =
      2 ^ p.logLength * p.weight ^ j := by
    rw [pow_add, Plan.two_pow_mul_weightExponent hn]
  rw [← residueAt_cyclic_reflect hn h hj, residueAt_eq ha, interpolate,
    residueAt_eq (getElem?_mapIdx_of ha), residue_fold (by rw [length_rotateRight, haLen]),
    ← mul_assoc, ← hturn]
  exact two_pow_mul_residue_rotateRight haLen _

/-- Interpolation finds the coefficients of which the given residues are the values. -/
theorem residueAt_interpolate_of_values (hn : 5 ≤ p.n) (h : Shaped p.ringWords p.length zs)
    {c : Nat → FermatRing p.ringWords}
    (hvalues : ∀ i < p.length, residueAt p.ringWords zs i =
      ∑ l ∈ range p.length, c l * p.weight ^ (l * (2 * i + 1)))
    (hj : j < p.length) : residueAt p.ringWords (interpolate p zs) j = c j := by
  have hsolved := residueAt_interpolate hn h hj
  have hterms : ∑ i ∈ range p.length,
      residueAt p.ringWords zs i * (p.weight ^ 2) ^ (i * (p.length - j)) =
        2 ^ p.logLength * (p.weight ^ j * c j) := by
    rw [← sum_evaluation_mul_pow (Plan.weight_pow_length hn) c hj]
    apply sum_congr rfl
    intro i hi
    rw [hvalues i (mem_range.mp hi)]
    rfl
  rw [hterms] at hsolved
  exact Plan.scale_cancel hn hsolved

theorem residueAt_interpolate_evaluate (hn : 5 ≤ p.n) (h : Shaped p.ringWords p.length xs)
    (hj : j < p.length) :
    residueAt p.ringWords (interpolate p (evaluate p xs)) j = residueAt p.ringWords xs j :=
  residueAt_interpolate_of_values hn (shaped_evaluate h)
    (fun _ hi => residueAt_evaluate hn h hi) hj

theorem residueAt_evaluate_interpolate (hn : 5 ≤ p.n) (h : Shaped p.ringWords p.length xs)
    (hi : i < p.length) :
    residueAt p.ringWords (evaluate p (interpolate p xs)) i = residueAt p.ringWords xs i := by
  have hne : p.ringWords ≠ 0 := Plan.ringWords_ne_zero hn
  apply (isUnit_two_pow hne p.logLength).mul_left_cancel
  rw [residueAt_evaluate hn (shaped_interpolate h) hi, mul_sum]
  refine Eq.trans ?_ (sum_reading_mul_pow (Plan.weight_pow_length hn) (residueAt p.ringWords xs) hi)
  apply sum_congr rfl
  intro j hj
  have hsolved := residueAt_interpolate hn h (mem_range.mp hj)
  rw [Plan.length] at hsolved
  rw [← hsolved, pow_mul_odd]
  ring

/-- Products of the values of two polynomials interpolate their negacyclic product. -/
theorem residueAt_interpolate_mul (hn : 5 ≤ p.n) (hx : Shaped p.ringWords p.length xs)
    (hy : Shaped p.ringWords p.length ys) (hz : Shaped p.ringWords p.length zs)
    (hproduct : ∀ i < p.length, residueAt p.ringWords zs i =
      residueAt p.ringWords (evaluate p xs) i * residueAt p.ringWords (evaluate p ys) i)
    (hj : j < p.length) :
    residueAt p.ringWords (interpolate p zs) j =
      negacyclic p.length (residueAt p.ringWords xs) (residueAt p.ringWords ys) j := by
  apply residueAt_interpolate_of_values hn hz _ hj
  intro i hi
  have hroot : (p.weight ^ (2 * i + 1)) ^ p.length = -1 := by
    rw [pow_right_comm, Plan.length, Plan.weight_pow_length hn]
    exact Odd.neg_one_pow ⟨i, rfl⟩
  rw [hproduct i hi, residueAt_evaluate hn hx hi, residueAt_evaluate hn hy hi]
  simp only [pow_mul' p.weight _ (2 * i + 1)]
  exact sum_mul_sum_eq_sum_negacyclic hroot _ _

theorem eq_map_fold {half len : Nat} (hz : Shaped half len zs)
    (hcanonical : ∀ a ∈ zs, Canonical half a) (hx : Shaped half len xs)
    (h : ∀ i < len, residueAt half zs i = residueAt half xs i) : zs = xs.map fold := by
  apply List.ext_getElem?
  intro i
  rcases Nat.lt_or_ge i len with hi | hi
  · obtain ⟨z, hzi, hzLen⟩ := hz.exists_getElem? hi
    obtain ⟨x, hxi, hxLen⟩ := hx.exists_getElem? hi
    have hi' := h i hi
    rw [residueAt_eq hzi, residueAt_eq hxi, ← fold_eq_fold_iff hzLen hxLen,
      fold_eq_self (hcanonical z (List.mem_of_getElem? hzi))] at hi'
    rw [hzi, List.getElem?_map, hxi, Option.map_some, hi']
  · rw [List.getElem?_eq_none (by rw [hz.length_eq]; exact hi),
      List.getElem?_eq_none (by rw [List.length_map, hx.length_eq]; exact hi)]

theorem map_fold_eq_self {half : Nat} (h : ∀ a ∈ xs, Canonical half a) : xs.map fold = xs := by
  conv_rhs => rw [← List.map_id xs]
  exact List.map_congr_left fun a ha => fold_eq_self (h a ha)

/-- Canonical arrays of the same residues are the same. -/
theorem eq_of_residueAt {half len : Nat} (hx : Shaped half len xs)
    (hxCanonical : ∀ a ∈ xs, Canonical half a) (hy : Shaped half len ys)
    (hyCanonical : ∀ a ∈ ys, Canonical half a)
    (h : ∀ i < len, residueAt half xs i = residueAt half ys i) : xs = ys :=
  (eq_map_fold hx hxCanonical hy h).trans (map_fold_eq_self hyCanonical)

/-- Interpolation depends on the residues alone. -/
theorem interpolate_congr (hn : 5 ≤ p.n) (hx : Shaped p.ringWords p.length xs)
    (hy : Shaped p.ringWords p.length ys)
    (h : ∀ i < p.length, residueAt p.ringWords xs i = residueAt p.ringWords ys i) :
    interpolate p xs = interpolate p ys := by
  apply eq_of_residueAt (shaped_interpolate hx) (canonical_interpolate hx)
    (shaped_interpolate hy) (canonical_interpolate hy)
  intro j hj
  apply Plan.scale_cancel hn (j := j)
  rw [residueAt_interpolate hn hx hj, residueAt_interpolate hn hy hj]
  apply sum_congr rfl
  intro i hi
  rw [h i (mem_range.mp hi)]

theorem shaped_map_fold {half len : Nat} (h : Shaped half len xs) :
    Shaped half len (xs.map fold) where
  length_eq := by rw [List.length_map, h.length_eq]
  width_eq a ha := by
    obtain ⟨x, hx, rfl⟩ := List.mem_map.mp ha
    rw [length_fold, h.width_eq x hx]

theorem residueAt_map_fold {half len : Nat} (h : Shaped half len xs) (hi : i < len) :
    residueAt half (xs.map fold) i = residueAt half xs i := by
  obtain ⟨a, ha, haLen⟩ := h.exists_getElem? hi
  have hfold : (xs.map fold)[i]? = some (fold a) := by rw [List.getElem?_map, ha]; rfl
  rw [residueAt_eq hfold, residueAt_eq ha, residue_fold haLen]

theorem canonical_map_fold {half len : Nat} (h : Shaped half len xs) :
    ∀ a ∈ xs.map fold, Canonical half a := by
  intro a ha
  obtain ⟨x, hx, rfl⟩ := List.mem_map.mp ha
  exact canonical_fold (h.width_eq x hx)

theorem interpolate_evaluate (hn : 5 ≤ p.n) (h : Shaped p.ringWords p.length xs) :
    interpolate p (evaluate p xs) = xs.map fold :=
  eq_map_fold (shaped_interpolate (shaped_evaluate h))
    (canonical_interpolate (shaped_evaluate h)) h
    fun _ hj => residueAt_interpolate_evaluate hn h hj

theorem map_fold_evaluate_interpolate (hn : 5 ≤ p.n) (h : Shaped p.ringWords p.length xs) :
    (evaluate p (interpolate p xs)).map fold = xs.map fold := by
  have hshape := shaped_evaluate (shaped_interpolate h)
  apply eq_map_fold (shaped_map_fold hshape) (canonical_map_fold hshape) h
  intro i hi
  rw [residueAt_map_fold hshape hi, residueAt_evaluate_interpolate hn h hi]

end FermatMul.Fourier
