import FermatMul.Proofs.Fourier.BitReversal
import FermatMul.Proofs.Fourier.RootsOfUnity
import FermatMul.Proofs.Residue.Canonical
import FermatMul.Fourier.Basic

namespace FermatMul.Fourier

open Finset
open FermatMul.Words FermatMul.Residue FermatMul.BitReversal

/-- An array of `len` vectors of two halves each. -/
structure Shaped (half len : Nat) (xs : List Words) : Prop where
  length_eq : xs.length = len
  width_eq : ∀ a ∈ xs, a.length = 2 * half

/-- The residue at an index of an array. -/
def residueAt (half : Nat) (xs : List Words) (i : Nat) : FermatRing half :=
  residue half (xs.getD i [])

variable {half len k i : Nat} {xs ys : List Words}

theorem residueAt_eq {a : Words} (h : xs[i]? = some a) : residueAt half xs i = residue half a := by
  rw [residueAt, List.getD_eq_getElem?_getD, h, Option.getD_some]

theorem Shaped.exists_getElem? (h : Shaped half len xs) (hi : i < len) :
    ∃ a, xs[i]? = some a ∧ a.length = 2 * half := by
  have hi' : i < xs.length := h.length_eq ▸ hi
  exact ⟨xs[i], List.getElem?_eq_getElem hi', h.width_eq _ (List.getElem_mem hi')⟩

theorem shaped_of_getElem? (hlen : xs.length = len)
    (h : ∀ i < len, ∃ a, xs[i]? = some a ∧ a.length = 2 * half) : Shaped half len xs := by
  refine ⟨hlen, fun a ha => ?_⟩
  obtain ⟨i, hi⟩ := List.mem_iff_getElem?.mp ha
  obtain ⟨b, hb, hbLen⟩ := h i (hlen ▸ (List.getElem?_eq_some_iff.mp hi).1)
  obtain rfl : a = b := Option.some_inj.mp (hi.symm.trans hb)
  exact hbLen

theorem residueAt_congr {j : Nat} (h : xs[i]? = ys[j]?) :
    residueAt half xs i = residueAt half ys j := by
  rw [residueAt, residueAt, List.getD_eq_getElem?_getD, List.getD_eq_getElem?_getD, h]

theorem residueAt_take (hi : i < len) : residueAt half (xs.take len) i = residueAt half xs i :=
  residueAt_congr (List.getElem?_take_of_lt hi)

theorem residueAt_drop (i : Nat) :
    residueAt half (xs.drop len) i = residueAt half xs (len + i) :=
  residueAt_congr List.getElem?_drop

theorem shaped_take (h : Shaped half (len + len) xs) : Shaped half len (xs.take len) where
  length_eq := by rw [List.length_take, h.length_eq]; omega
  width_eq a ha := h.width_eq a (List.mem_of_mem_take ha)

theorem shaped_drop (h : Shaped half (len + len) xs) : Shaped half len (xs.drop len) where
  length_eq := by rw [List.length_drop, h.length_eq]; omega
  width_eq a ha := h.width_eq a (List.mem_of_mem_drop ha)

/-- Multiplying two arrays element by element multiplies their residues. -/
theorem map_zip_spec {f : Words × Words → Words} (hx : Shaped half len xs)
    (hy : Shaped half len ys)
    (hf : ∀ a ∈ xs, ∀ b ∈ ys, (f (a, b)).length = 2 * half ∧
      residue half (f (a, b)) = residue half a * residue half b) :
    Shaped half len ((xs.zip ys).map f) ∧ ∀ i < len,
      residueAt half ((xs.zip ys).map f) i = residueAt half xs i * residueAt half ys i := by
  have helement : ∀ i < len, ∃ a b, xs[i]? = some a ∧ ys[i]? = some b ∧
      ((xs.zip ys).map f)[i]? = some (f (a, b)) ∧ (f (a, b)).length = 2 * half ∧
        residue half (f (a, b)) = residue half a * residue half b := by
    intro i hi
    obtain ⟨a, ha, _⟩ := hx.exists_getElem? hi
    obtain ⟨b, hb, _⟩ := hy.exists_getElem? hi
    refine ⟨a, b, ha, hb, ?_, hf a (List.mem_of_getElem? ha) b (List.mem_of_getElem? hb)⟩
    have hpair : (xs.zip ys)[i]? = some (a, b) := List.getElem?_zip_eq_some.mpr ⟨ha, hb⟩
    rw [List.getElem?_map, hpair]
    rfl
  constructor
  · apply shaped_of_getElem?
    · rw [List.length_map, List.length_zip, hx.length_eq, hy.length_eq, Nat.min_self]
    · intro i hi
      obtain ⟨a, b, _, _, hproduct, hlen, _⟩ := helement i hi
      exact ⟨f (a, b), hproduct, hlen⟩
  · intro i hi
    obtain ⟨a, b, ha, hb, hproduct, _, hresidue⟩ := helement i hi
    rw [residueAt_eq hproduct, residueAt_eq ha, residueAt_eq hb, hresidue]

section JoinHalves

variable {upper lower : List Words} {step : Nat}

theorem shaped_joinHalves (hu : Shaped half len upper) (hl : Shaped half len lower) :
    Shaped half (len + len) (joinHalves step upper lower) where
  length_eq := by simp [joinHalves, hu.length_eq, hl.length_eq]
  width_eq a ha := by
    rcases List.mem_append.mp ha with hsum | hdifference
    · obtain ⟨i, hi⟩ := List.mem_iff_getElem?.mp hsum
      obtain ⟨x, y, hx, _, rfl⟩ := List.getElem?_zipWith_eq_some.mp hi
      rw [length_addWrap, hu.width_eq x (List.mem_of_getElem? hx)]
    · obtain ⟨i, hi⟩ := List.mem_iff_getElem?.mp hdifference
      obtain ⟨x, y, hx, _, rfl⟩ := List.getElem?_zipWith_eq_some.mp hi
      rw [length_subWrap, hu.width_eq x (List.mem_of_getElem? hx)]

theorem residueAt_joinHalves_lower (hu : Shaped half len upper) (hl : Shaped half len lower)
    (hi : i < len) :
    residueAt half (joinHalves step upper lower) i =
      residueAt half upper i + 2 ^ (step * i) * residueAt half lower i := by
  obtain ⟨x, hx, hxLen⟩ := hu.exists_getElem? hi
  obtain ⟨y, hy, hyLen⟩ := hl.exists_getElem? hi
  have helem : (joinHalves step upper lower)[i]? = some (addWrap x (rotateLeft y (step * i))) := by
    rw [joinHalves, List.getElem?_append_left (by simp [hu.length_eq, hl.length_eq, hi]),
      List.getElem?_zipWith, hx, List.getElem?_mapIdx, hy]
    rfl
  rw [residueAt_eq helem, residueAt_eq hx, residueAt_eq hy,
    residue_addWrap hxLen (by rw [length_rotateLeft, hyLen]), residue_rotateLeft hyLen]

theorem residueAt_joinHalves_upper (hu : Shaped half len upper) (hl : Shaped half len lower)
    (hi : i < len) :
    residueAt half (joinHalves step upper lower) (len + i) =
      residueAt half upper i - 2 ^ (step * i) * residueAt half lower i := by
  obtain ⟨x, hx, hxLen⟩ := hu.exists_getElem? hi
  obtain ⟨y, hy, hyLen⟩ := hl.exists_getElem? hi
  have hsum : (upper.zipWith addWrap (lower.mapIdx fun j a => rotateLeft a (step * j))).length =
      len := by
    simp [hu.length_eq, hl.length_eq]
  have helem : (joinHalves step upper lower)[len + i]? =
      some (subWrap x (rotateLeft y (step * i))) := by
    rw [joinHalves, List.getElem?_append_right (by omega), hsum, Nat.add_sub_cancel_left,
      List.getElem?_zipWith, hx, List.getElem?_mapIdx, hy]
    rfl
  rw [residueAt_eq helem, residueAt_eq hx, residueAt_eq hy,
    residue_subWrap hxLen (by rw [length_rotateLeft, hyLen]), residue_rotateLeft hyLen]

end JoinHalves

theorem shaped_cascade {period : Nat} (h : Shaped half (2 ^ k) xs) :
    Shaped half (2 ^ k) (cascade period k xs) := by
  induction k generalizing xs with
  | zero => exact h
  | succ k ih =>
      have hdouble : 2 ^ (k + 1) = 2 ^ k + 2 ^ k := by rw [Nat.pow_succ, Nat.mul_two]
      rw [hdouble] at h ⊢
      exact shaped_joinHalves (ih (shaped_take h)) (ih (shaped_drop h))

/-- The root of unity of order `2 ^ k` by which a rotation turns. -/
def root (half k : Nat) : FermatRing half := 2 ^ (32 * (2 * half) / 2 ^ k)

theorem root_succ_sq (hdvd : 2 ^ (k + 1) ∣ 32 * (2 * half)) :
    root half (k + 1) ^ 2 = root half k := by
  obtain ⟨c, hc⟩ := hdvd
  have hfine : 32 * (2 * half) / 2 ^ (k + 1) = c := by
    rw [hc, Nat.mul_div_cancel_left _ (Nat.two_pow_pos _)]
  have hcoarse : 32 * (2 * half) / 2 ^ k = c * 2 := by
    rw [hc, Nat.pow_succ, Nat.mul_assoc, Nat.mul_div_cancel_left _ (Nat.two_pow_pos _),
      Nat.mul_comm]
  rw [root, root, hfine, hcoarse]
  exact (pow_mul 2 c 2).symm

theorem root_succ_pow (hdvd : 2 ^ (k + 1) ∣ 32 * (2 * half)) :
    root half (k + 1) ^ 2 ^ k = -1 := by
  obtain ⟨c, hc⟩ := hdvd
  have hfine : 32 * (2 * half) / 2 ^ (k + 1) = c := by
    rw [hc, Nat.mul_div_cancel_left _ (Nat.two_pow_pos _)]
  have hhalf : c * 2 ^ k = 32 * half := by
    rw [Nat.pow_succ] at hc
    have : 2 ^ k * 2 * c = 2 * (c * 2 ^ k) := by ring
    omega
  rw [root, hfine]
  exact (pow_mul 2 c (2 ^ k)).symm.trans (two_pow_eq_neg_one hhalf)

/-- The cascade on bit-reversed coefficients is the direct sum of the coefficients times powers of
the root. -/
theorem residueAt_cascade (hdvd : 2 ^ k ∣ 32 * (2 * half)) (h : Shaped half (2 ^ k) xs)
    (hi : i < 2 ^ k) :
    residueAt half (cascade (32 * (2 * half)) k xs) i =
      ∑ j ∈ range (2 ^ k), residueAt half xs (reversed k j) * root half k ^ (i * j) := by
  induction k generalizing xs i with
  | zero =>
      obtain rfl : i = 0 := by simpa using hi
      simp [cascade]
  | succ k ih =>
      have hdouble : 2 ^ (k + 1) = 2 ^ k + 2 ^ k := by rw [Nat.pow_succ, Nat.mul_two]
      have hdvd' : 2 ^ k ∣ 32 * (2 * half) := (Nat.pow_dvd_pow 2 (Nat.le_succ k)).trans hdvd
      have hroot := root_succ_sq hdvd
      let upper := cascade (32 * (2 * half)) k (xs.take (2 ^ k))
      let lower := cascade (32 * (2 * half)) k (xs.drop (2 ^ k))
      rw [hdouble] at h hi
      have hupper : Shaped half (2 ^ k) upper := shaped_cascade (shaped_take h)
      have hlower : Shaped half (2 ^ k) lower := shaped_cascade (shaped_drop h)
      -- The reversal of an even index lies in the first half, that of an odd one in the second.
      have hevens : ∀ j < 2 ^ k, residueAt half upper j =
          ∑ l ∈ range (2 ^ k), residueAt half xs (reversed (k + 1) (2 * l)) *
            (root half (k + 1) ^ 2) ^ (j * l) := by
        intro j hj
        rw [ih hdvd' (shaped_take h) hj, hroot]
        apply sum_congr rfl
        intro l _
        rw [residueAt_take (reversed_lt k l), reversed_even]
      have hodds : ∀ j < 2 ^ k, residueAt half lower j =
          ∑ l ∈ range (2 ^ k), residueAt half xs (reversed (k + 1) (2 * l + 1)) *
            (root half (k + 1) ^ 2) ^ (j * l) := by
        intro j hj
        rw [ih hdvd' (shaped_drop h) hj, hroot]
        apply sum_congr rfl
        intro l _
        rw [residueAt_drop, reversed_odd]
      have hturn : ∀ j, (2 : FermatRing half) ^ (32 * (2 * half) / 2 ^ (k + 1) * j) =
          root half (k + 1) ^ j := fun j => pow_mul _ _ _
      change residueAt half (joinHalves (32 * (2 * half) / 2 ^ (k + 1)) upper lower) i = _
      have hrange : 2 ^ (k + 1) = 2 * 2 ^ k := Nat.pow_succ'
      conv_rhs => rw [hrange]
      rcases Nat.lt_or_ge i (2 ^ k) with hlow | hhigh
      · rw [residueAt_joinHalves_lower hupper hlower hlow, hevens i hlow, hodds i hlow, hturn,
          sum_mul_pow_lower]
      · obtain ⟨j, rfl⟩ : ∃ j, i = 2 ^ k + j := ⟨i - 2 ^ k, by omega⟩
        have hj : j < 2 ^ k := by omega
        rw [residueAt_joinHalves_upper hupper hlower hj, hevens j hj, hodds j hj, hturn,
          sum_mul_pow_upper (root_succ_pow hdvd)]

end FermatMul.Fourier
