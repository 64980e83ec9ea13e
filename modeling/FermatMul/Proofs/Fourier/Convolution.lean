import FermatMul.Proofs.Fourier.Checked

namespace FermatMul

namespace Fourier

open FermatMul.Residue FermatMul.Words

variable {m n half len i : Nat} {p : Plan} {xs ys gx gy : List Words}

/-- Some vectors of an array were replaced by their canonical ones. -/
structure PartlyReduced (xs gs : List Words) : Prop where
  length_eq : gs.length = xs.length
  element : ∀ (i : Nat) (a g : Words), xs[i]? = some a → gs[i]? = some g →
    g = a ∨ reduce a = .ok g

theorem partlyReduced_refl (xs : List Words) : PartlyReduced xs xs :=
  ⟨rfl, fun _ _ _ ha hg => .inl (Option.some_inj.mp (hg.symm.trans ha))⟩

theorem partlyReduced_map_fold (hhalf : half ≠ 0) (h : Shaped half len xs) :
    PartlyReduced xs (xs.map fold) := by
  refine ⟨List.length_map _, fun i a g ha hg => .inr ?_⟩
  rw [List.getElem?_map, ha, Option.map_some, Option.some_inj] at hg
  rw [← hg]
  exact reduce_eq hhalf (h.width_eq a (List.mem_of_getElem? ha))

theorem PartlyReduced.spec (hg : PartlyReduced xs gx) (hhalf : half ≠ 0)
    (h : Shaped half len xs) :
    Shaped half len gx ∧ ∀ i < len, residueAt half gx i = residueAt half xs i := by
  have helement : ∀ i < len, ∃ a g, xs[i]? = some a ∧ gx[i]? = some g ∧ g.length = 2 * half ∧
      residue half g = residue half a := by
    intro i hi
    obtain ⟨a, ha, haLen⟩ := h.exists_getElem? hi
    have hi' : i < gx.length := by rwa [hg.length_eq, h.length_eq]
    refine ⟨a, gx[i], ha, List.getElem?_eq_getElem hi', ?_⟩
    rcases hg.element i a gx[i] ha (List.getElem?_eq_getElem hi') with hsame | hreduced
    · rw [hsame]
      exact ⟨haLen, rfl⟩
    · rw [reduce_eq hhalf haLen, Except.ok.injEq] at hreduced
      rw [← hreduced, length_fold]
      exact ⟨haLen, residue_fold haLen⟩
  constructor
  · apply shaped_of_getElem? (hg.length_eq.trans h.length_eq)
    intro i hi
    obtain ⟨a, g, _, hget, hlen, _⟩ := helement i hi
    exact ⟨g, hget, hlen⟩
  · intro i hi
    obtain ⟨a, g, ha, hget, _, hresidue⟩ := helement i hi
    rw [residueAt_eq hget, residueAt_eq ha, hresidue]

/-- The products of the canonical vectors of two arrays. -/
def products (xs ys : List Words) : List Words :=
  (xs.zip ys).map fun xy => mulCanonical {} (fold xy.1) (fold xy.2)

theorem mulAll_eq (hhalf : half ≠ 0) (hx : Shaped half len xs) (hy : Shaped half len ys) :
    mulAll xs ys = .ok (products xs ys) := by
  apply mapM_eq_pure
  rintro ⟨a, b⟩ hab
  obtain ⟨ha, hb⟩ := List.of_mem_zip hab
  exact mul_eq hhalf (hx.width_eq a ha) (hy.width_eq b hb)

theorem products_spec (hx : Shaped half len xs) (hy : Shaped half len ys) :
    Shaped half len (products xs ys) ∧ ∀ i < len,
      residueAt half (products xs ys) i = residueAt half xs i * residueAt half ys i := by
  apply map_zip_spec hx hy
  intro a ha b hb
  exact mulCanonical_fold_spec {} (hx.width_eq a ha) (hy.width_eq b hb)

theorem residueAt_interpolate_products (hn : 5 ≤ p.n) (hx : Shaped p.ringWords p.length xs)
    (hy : Shaped p.ringWords p.length ys) (hgx : PartlyReduced (evaluate p xs) gx)
    (hgy : PartlyReduced (evaluate p ys) gy) :
    Shaped p.ringWords p.length (products gx gy) ∧ ∀ i < p.length,
      residueAt p.ringWords (interpolate p (products gx gy)) i =
        negacyclic p.length (residueAt p.ringWords xs) (residueAt p.ringWords ys) i := by
  have hne : p.ringWords ≠ 0 := Plan.ringWords_ne_zero hn
  obtain ⟨hgxShape, hgxResidue⟩ := hgx.spec hne (shaped_evaluate hx)
  obtain ⟨hgyShape, hgyResidue⟩ := hgy.spec hne (shaped_evaluate hy)
  obtain ⟨hshape, hproduct⟩ := products_spec hgxShape hgyShape
  refine ⟨hshape, fun i hi => residueAt_interpolate_mul hn hx hy hshape ?_ hi⟩
  intro j hj
  rw [hproduct j hj, hgxResidue j hj, hgyResidue j hj]

/-- Which vectors are reduced before the products does not change the vectors that come out. -/
theorem interpolate_products_eq (hn : 5 ≤ p.n) (hx : Shaped p.ringWords p.length xs)
    (hy : Shaped p.ringWords p.length ys) (hgx : PartlyReduced (evaluate p xs) gx)
    (hgy : PartlyReduced (evaluate p ys) gy) :
    interpolate p (products gx gy) = interpolate p (products (evaluate p xs) (evaluate p ys)) := by
  obtain ⟨hshape, hresidue⟩ := residueAt_interpolate_products hn hx hy
    (partlyReduced_refl _) (partlyReduced_refl _)
  obtain ⟨hgShape, hgResidue⟩ := residueAt_interpolate_products hn hx hy hgx hgy
  apply eq_of_residueAt (shaped_interpolate hgShape) (canonical_interpolate hgShape)
    (shaped_interpolate hshape) (canonical_interpolate hshape)
  intro i hi
  rw [hgResidue i hi, hresidue i hi]

theorem toNat_interpolate_products (hp : Plan.ofExponents m n = .ok p)
    (hx : Shaped p.ringWords p.length xs) (hy : Shaped p.ringWords p.length ys)
    (hi : i < p.length) :
    (toNat ((interpolate p (products (evaluate p xs) (evaluate p ys))).getD i []) : Int) =
      negacyclic p.length (fun j => value (xs.getD j [])) (fun k => value (ys.getD k [])) i %
        (2 ^ 2 ^ n + 1) := by
  obtain ⟨hshape, hresidue⟩ := residueAt_interpolate_products (five_le_of_ofExponents hp) hx hy
    (partlyReduced_refl _) (partlyReduced_refl _)
  obtain ⟨z, hz, _⟩ := (shaped_interpolate hshape).exists_getElem? hi
  have hvalue : residue p.ringWords z = ((negacyclic p.length
      (fun j => value (xs.getD j [])) (fun k => value (ys.getD k [])) i : Int) :
        FermatRing p.ringWords) := by
    rw [← residueAt_eq hz, hresidue i hi,
      negacyclic_congr (fun _ hj => residueAt_eq_value hx hj)
        (fun _ hk => residueAt_eq_value hy hk), ← map_negacyclic]
    rfl
  rw [List.getD_eq_getElem?_getD, hz, Option.getD_some, ← two_pow_ringWords hp]
  exact (canonical_interpolate hshape z (List.mem_of_getElem? hz)).toNat_eq_emod hvalue

/-- Transforming, multiplying element by element and transforming back succeeds, whichever vectors
are reduced before they are multiplied, and gives the canonical vectors of the negacyclic
convolution. -/
theorem convolution_exact (hp : Plan.ofExponents m n = .ok p)
    (hx : Shaped p.ringWords p.length xs) (hy : Shaped p.ringWords p.length ys) :
    ∃ fx fy rx ry zs,
      evaluateAt m n xs = .ok fx ∧ evaluateAt m n ys = .ok fy ∧
      reduceAll fx = .ok rx ∧ reduceAll fy = .ok ry ∧
      PartlyReduced fx rx ∧ PartlyReduced fy ry ∧
      (∀ gx gy, PartlyReduced fx gx → PartlyReduced fy gy →
        (mulAll gx gy >>= interpolateAt m n) = .ok zs) ∧
      negacyclicProduct m n xs ys = .ok zs ∧
      Shaped p.ringWords p.length zs ∧
      ∀ i < p.length, (toNat (zs.getD i []) : Int) =
        negacyclic p.length (fun j => value (xs.getD j [])) (fun k => value (ys.getD k [])) i %
          (2 ^ 2 ^ n + 1) := by
  have hn := five_le_of_ofExponents hp
  have hne : p.ringWords ≠ 0 := Plan.ringWords_ne_zero hn
  have hfx := shaped_evaluate hx
  have hfy := shaped_evaluate hy
  let zs := interpolate p (products (evaluate p xs) (evaluate p ys))
  have hshape := (residueAt_interpolate_products hn hx hy
    (partlyReduced_refl _) (partlyReduced_refl _)).1
  have hrun : ∀ gx gy, PartlyReduced (evaluate p xs) gx → PartlyReduced (evaluate p ys) gy →
      (mulAll gx gy >>= interpolateAt m n) = .ok zs := by
    intro gx gy hgx hgy
    have hgShape := (residueAt_interpolate_products hn hx hy hgx hgy).1
    rw [mulAll_eq hne (hgx.spec hne hfx).1 (hgy.spec hne hfy).1]
    change interpolateAt m n (products gx gy) = _
    rw [interpolateAt_eq hp hgShape, interpolate_products_eq hn hx hy hgx hgy]
  refine ⟨_, _, _, _, zs, evaluateAt_eq hp hx, evaluateAt_eq hp hy, reduceAll_eq hne hfx,
    reduceAll_eq hne hfy, partlyReduced_map_fold hne hfx, partlyReduced_map_fold hne hfy, hrun,
    ?_, shaped_interpolate hshape, fun i hi => toNat_interpolate_products hp hx hy hi⟩
  rw [negacyclicProduct, evaluateAt_eq hp hx, evaluateAt_eq hp hy]
  exact hrun _ _ (partlyReduced_refl _) (partlyReduced_refl _)

theorem convolution_exact_sixteen :
    ∃ zs, negacyclicProduct 8 5 (List.replicate 16 [0, 1]) (List.replicate 16 [3, 1]) = .ok zs ∧
      zs.length = 16 ∧ (toNat (zs.getD 0 []) : Int) = 28 ∧
        (toNat (zs.getD 15 []) : Int) = 2 ^ 32 - 31 := by
  have hp : Plan.ofExponents 8 5 = .ok ⟨8, 5⟩ := rfl
  have hx : Shaped (Plan.ringWords ⟨8, 5⟩) (Plan.length ⟨8, 5⟩) (List.replicate 16 [0, 1]) :=
    ⟨by decide, by decide⟩
  have hy : Shaped (Plan.ringWords ⟨8, 5⟩) (Plan.length ⟨8, 5⟩) (List.replicate 16 [3, 1]) :=
    ⟨by decide, by decide⟩
  obtain ⟨_, _, _, _, zs, _, _, _, _, _, _, _, hrun, hshape, hvalue⟩ := convolution_exact hp hx hy
  refine ⟨zs, hrun, hshape.length_eq, ?_, ?_⟩
  · exact (hvalue 0 (by decide)).trans (by decide +kernel)
  · exact (hvalue 15 (by decide)).trans (by decide +kernel)

end Fourier

end FermatMul
