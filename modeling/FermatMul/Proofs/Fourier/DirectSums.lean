import FermatMul.Proofs.Fourier.Checked

namespace FermatMul.Fourier

open Finset
open FermatMul.Residue FermatMul.Words

variable {m n j : Nat} {p : Plan} {xs : List Words}

/-- Exponents that are in range and belong together, and an array of the length and the widths that
they ask for. -/
structure Accepted (m n : Nat) (xs : List Words) : Prop where
  exponent_range : 5 ≤ n ∧ n ≤ 40
  exponent_pairing : n = m / 2 + 1
  length_eq : xs.length = Plan.length ⟨m, n⟩
  width_eq : ∀ a ∈ xs, a.length = 2 ^ (n + 1) / 32

/-- A transform of an array in place, which is checked before it is touched. -/
def inPlace (op : Plan → List Words → List Words) (m n : Nat) :
    ExceptT Refusal (StateM (List Words)) Unit := do
  let p ← Plan.ofExponents m n
  let xs ← get
  Fourier.requireShape p xs
  set (op p xs)

theorem run_inPlace (op : Plan → List Words → List Words)
    (hp : Plan.ofExponents m n = .ok p) (xs : List Words) :
    (inPlace op m n).run.run xs =
      match Fourier.requireShape p xs with
      | .ok _ => (Except.ok (), op p xs)
      | .error e => (Except.error e, xs) := by
  rw [inPlace, hp]
  -- Reading the array does not change it: what is left to run is the check and what follows it.
  change ExceptT.bindCont (m := StateM (List Words)) (fun _ => set (op p xs))
    (Fourier.requireShape p xs) xs = _
  cases Fourier.requireShape p xs <;> rfl

theorem two_mul_ringWords (hn : 5 ≤ n) : 2 * Plan.ringWords ⟨m, n⟩ = 2 ^ (n + 1) / 32 := by
  have h : 32 * Plan.ringWords ⟨m, n⟩ = 2 ^ n := Plan.thirtyTwo_mul_ringWords hn
  rw [Nat.pow_succ, ← h]
  omega

theorem accepted_iff :
    Accepted m n xs ↔ Plan.ofExponents m n = .ok ⟨m, n⟩ ∧
      Shaped (Plan.ringWords ⟨m, n⟩) (Plan.length ⟨m, n⟩) xs := by
  constructor
  · rintro ⟨hrange, hpair, hlen, hwidth⟩
    refine ⟨Plan.ofExponents_eq_ok_iff.mpr ⟨hrange, hpair, rfl⟩, hlen, ?_⟩
    rwa [two_mul_ringWords hrange.1]
  · rintro ⟨hp, hlen, hwidth⟩
    obtain ⟨hrange, hpair, _⟩ := Plan.ofExponents_eq_ok_iff.mp hp
    refine ⟨hrange, hpair, hlen, ?_⟩
    rwa [← two_mul_ringWords hrange.1]

theorem evaluateAt_refused (h : ¬ Accepted m n xs) :
    ∃ e, e.kind = .invalidArgument ∧ evaluateAt m n xs = .error e ∧
      (inPlace evaluate m n).run.run xs = (.error e, xs) := by
  cases hp : Plan.ofExponents m n with
  | error e =>
      refine ⟨e, Plan.kind_of_ofExponents_eq_error hp, ?_, ?_⟩
      · rw [evaluateAt, hp]
        rfl
      · rw [inPlace, hp]
        rfl
  | ok p =>
      obtain rfl : p = ⟨m, n⟩ := (Plan.ofExponents_eq_ok_iff.mp hp).2.2
      cases hshape : Fourier.requireShape ⟨m, n⟩ xs with
      | error e =>
          refine ⟨e, kind_of_requireShape_eq_error hshape, ?_, ?_⟩
          · rw [evaluateAt, hp]
            change (Fourier.requireShape ⟨m, n⟩ xs >>= fun _ => .ok (evaluate ⟨m, n⟩ xs)) = _
            rw [hshape]
            rfl
          · rw [run_inPlace evaluate hp, hshape]
      | ok _ => exact absurd (accepted_iff.mpr ⟨hp, requireShape_eq_ok_iff.mp hshape⟩) h

theorem evaluateAt_accepted_iff : (∃ ys, evaluateAt m n xs = .ok ys) ↔ Accepted m n xs := by
  constructor
  · rintro ⟨ys, hys⟩
    by_contra h
    obtain ⟨e, _, he, _⟩ := evaluateAt_refused h
    exact nomatch hys.symm.trans he
  · intro h
    obtain ⟨hp, hshape⟩ := accepted_iff.mp h
    exact ⟨_, evaluateAt_eq hp hshape⟩

theorem evaluate_sums (hn : 5 ≤ p.n) (hx : Shaped p.ringWords p.length xs)
    (hj : j < p.length) {y : Words} (hy : (evaluate p xs)[j]? = some y) :
    (value y : FermatRing p.ringWords) =
      ∑ l ∈ range p.length, (value (xs.getD l []) : FermatRing _) *
        p.weight ^ (l * (2 * j + 1)) := by
  have hlen := (shaped_evaluate hx).width_eq y (List.mem_of_getElem? hy)
  rw [← residue_eq_value hlen, ← residueAt_eq hy, residueAt_evaluate hn hx hj]
  apply sum_congr rfl
  intro l hl
  rw [residueAt_eq_value hx (mem_range.mp hl), eq_intCast]

/-- Evaluation accepts exactly the exponents between 5 and 40 that belong together with the arrays
of their length and widths; anything else is an invalid argument, and the array stays as it was. Of
an accepted array, whatever vectors are in it, output `k` is the sum of the coefficients times the
powers of `θ ^ (2 * k + 1)`. -/
theorem evaluation_exact (m n : Nat) (xs : List Words) :
    let len := Plan.length ⟨m, n⟩
    let θ : ZMod (2 ^ 2 ^ n + 1) := 2 ^ (2 ^ n / len)
    ((∃ ys, evaluateAt m n xs = .ok ys) ↔ Accepted m n xs) ∧
    (¬ Accepted m n xs → ∃ e, e.kind = .invalidArgument ∧ evaluateAt m n xs = .error e ∧
      (inPlace evaluate m n).run.run xs = (.error e, xs)) ∧
    ∀ ys, evaluateAt m n xs = .ok ys →
      (inPlace evaluate m n).run.run xs = (.ok (), ys) ∧ ys.length = len ∧
      ∀ k < len, ∃ y, ys[k]? = some y ∧ y.length = 2 ^ (n + 1) / 32 ∧
        (value y : ZMod (2 ^ 2 ^ n + 1)) =
          ∑ j ∈ range len, (value (xs.getD j []) : ZMod _) * θ ^ (j * (2 * k + 1)) := by
  refine ⟨evaluateAt_accepted_iff, evaluateAt_refused, ?_⟩
  intro ys hys
  obtain ⟨hp, hx⟩ := accepted_iff.mp (evaluateAt_accepted_iff.mp ⟨ys, hys⟩)
  have hn := five_le_of_ofExponents hp
  have hy := shaped_evaluate hx
  obtain rfl : evaluate ⟨m, n⟩ xs = ys := Except.ok.inj ((evaluateAt_eq hp hx).symm.trans hys)
  refine ⟨?_, hy.length_eq, fun k hk => ?_⟩
  · rw [run_inPlace evaluate hp, requireShape_eq_ok_iff.mpr hx]
  · obtain ⟨y, hget, hlen⟩ := hy.exists_getElem? hk
    refine ⟨y, hget, hlen.trans (two_mul_ringWords hn), ?_⟩
    rw [← two_pow_ringWords hp, Plan.two_pow_weight hn]
    exact evaluate_sums hn hx hk hget

/-- An output of interpolation stands for the one residue that solves for its coefficient. -/
theorem interpolate_solves (hn : 5 ≤ p.n) (hx : Shaped p.ringWords p.length xs)
    (hj : j < p.length) {c : Words} (hc : (interpolate p xs)[j]? = some c)
    (s : FermatRing p.ringWords) :
    (p.length * p.weight ^ j * s =
      ∑ k ∈ range p.length, (value (xs.getD k []) : FermatRing _) *
        p.weight⁻¹ ^ (2 * j * k)) ↔ s = residue p.ringWords c := by
  have hinverse := ZMod.inv_mul_of_unit _ (Plan.isUnit_weight hn)
  have hperiod := sq_pow_eq_one (Plan.weight_pow_length hn)
  have hsolved : p.length * p.weight ^ j * residue p.ringWords c =
      ∑ k ∈ range p.length, (value (xs.getD k []) : FermatRing _) *
        p.weight⁻¹ ^ (2 * j * k) := by
    rw [← residueAt_eq hc, Plan.cast_length, mul_assoc, residueAt_interpolate hn hx hj]
    apply sum_congr rfl
    intro k hk
    rw [inverse_pow_eq hinverse hperiod hj.le, residueAt_eq_value hx (mem_range.mp hk), eq_intCast]
    rfl
  rw [← hsolved, Plan.cast_length, mul_assoc, mul_assoc]
  exact ⟨Plan.scale_cancel hn, fun hs => by rw [hs]⟩

/-- Interpolation accepts the arrays that evaluation accepts. Its result depends on their residues
alone, and is the array of the canonical vectors of the residues, one for each index, that solve
for the coefficients. -/
theorem interpolation_exact (h : Accepted m n xs) :
    let len := Plan.length ⟨m, n⟩
    let θ : ZMod (2 ^ 2 ^ n + 1) := 2 ^ (2 ^ n / len)
    θ * θ⁻¹ = 1 ∧
    ∃ gx, interpolateAt m n xs = .ok gx ∧ gx.length = len ∧
      (∀ ys, Accepted m n ys →
        (∀ k < len, (value (ys.getD k []) : ZMod (2 ^ 2 ^ n + 1)) = value (xs.getD k [])) →
          interpolateAt m n ys = .ok gx) ∧
      ∀ j < len, ∃ (c : Words) (r : ZMod (2 ^ 2 ^ n + 1)),
        gx[j]? = some c ∧ c.length = 2 ^ (n + 1) / 32 ∧ toNat c = r.val ∧
        ∀ s, (len * θ ^ j * s =
          ∑ k ∈ range len, (value (xs.getD k []) : ZMod _) * θ⁻¹ ^ (2 * j * k)) ↔ s = r := by
  obtain ⟨hp, hx⟩ := accepted_iff.mp h
  have hn := five_le_of_ofExponents hp
  have hshape := shaped_interpolate hx
  rw [← two_pow_ringWords hp]
  intro len θ
  have hθ : θ = Plan.weight ⟨m, n⟩ := Plan.two_pow_weight hn
  rw [hθ]
  refine ⟨ZMod.mul_inv_of_unit _ (Plan.isUnit_weight hn), interpolate ⟨m, n⟩ xs,
    interpolateAt_eq hp hx, hshape.length_eq, ?_, ?_⟩
  · intro ys hys hsame
    have hy := (accepted_iff.mp hys).2
    rw [interpolateAt_eq hp hy, interpolate_congr hn hy hx]
    intro k hk
    rw [residueAt_eq_value hy hk, residueAt_eq_value hx hk, eq_intCast, eq_intCast, hsame k hk]
  · intro j hj
    obtain ⟨c, hget, hlen⟩ := hshape.exists_getElem? hj
    have hcanonical := canonical_interpolate hx c (List.mem_of_getElem? hget)
    refine ⟨c, residue _ c, hget, hlen.trans (two_mul_ringWords hn), ?_, ?_⟩
    · exact (ZMod.val_natCast_of_lt (Nat.lt_succ_of_le hcanonical.toNat_le)).symm
    · exact interpolate_solves hn hx hj hget

theorem interpolation_exact_sixteen :
    ∃ gx c, interpolateAt 8 5 ([5, 2] :: List.replicate 15 [0, 1]) = .ok gx ∧
      interpolateAt 8 5 ([3, 0] :: List.replicate 15 [5, 6]) = .ok gx ∧
      gx[0]? = some c ∧ toNat c = 3 * 2 ^ 30 := by
  have hx : Accepted 8 5 ([5, 2] :: List.replicate 15 [0, 1]) :=
    ⟨by decide, rfl, by decide, by decide⟩
  have hy : Accepted 8 5 ([3, 0] :: List.replicate 15 [5, 6]) :=
    ⟨by decide, rfl, by decide, by decide⟩
  obtain ⟨_, gx, hgx, _, hsame, hsolves⟩ := interpolation_exact hx
  obtain ⟨c, r, hget, _, hvalue, hunique⟩ := hsolves 0 (by decide)
  have hr : 3 * 2 ^ 30 = r := (hunique _).mp (by decide +kernel)
  refine ⟨gx, c, hgx, hsame _ hy (by decide +kernel), hget, ?_⟩
  rw [hvalue, ← hr]
  decide +kernel

end FermatMul.Fourier
