import FermatMul.Product.Basic
import FermatMul.Proofs.Fourier.Inversion
import FermatMul.Proofs.Product.Packing

/-!
The transform route is exact once the smaller products are: interpolation gives every coefficient
modulo `2 ^ (2 ^ n) + 1`, the packed product corrects it, and the corrected coefficients add up to
the product.
-/

namespace FermatMul.Product

open Finset
open FermatMul.Fourier FermatMul.Plan FermatMul.Radix FermatMul.Residue FermatMul.Words

/-- A result is the product of two vectors, as long as both together. -/
structure IsProduct (a b : Words) (c : Product) : Prop where
  length_eq : c.words.length = a.length + b.length
  toNat_eq : toNat c.words = toNat a * toNat b

variable {p : Plan} {x y z c packed : Words} {i : Nat}

theorem shaped_spectrum (hn : 6 ≤ p.n) (x : Words) :
    Shaped p.ringWords p.length (spectrum p x) :=
  shaped_map_fold (shaped_evaluate (shaped_blocks hn x))

theorem canonical_spectrum (hn : 6 ≤ p.n) (x : Words) :
    ∀ a ∈ spectrum p x, Canonical p.ringWords a :=
  canonical_map_fold (shaped_evaluate (shaped_blocks hn x))

theorem residueAt_spectrum (hn : 6 ≤ p.n) (x : Words) (hi : i < p.length) :
    residueAt p.ringWords (spectrum p x) i =
      residueAt p.ringWords (evaluate p (p.blocks x)) i :=
  residueAt_map_fold (shaped_evaluate (shaped_blocks hn x)) hi

section Halves

variable {half : Nat} {a b : Words} {c : Product} (ha : Canonical half a) (hb : Canonical half b)
  (hc : IsProduct (a.take half) (b.take half) c)

include ha hb hc

theorem IsProduct.length_halves : c.words.length = 2 * half := by
  rw [hc.length_eq, List.length_take, List.length_take, ha.length_eq, hb.length_eq]
  omega

theorem IsProduct.toNat_foldSigns :
    toNat (foldSigns a b c.words) =
      if isMinusOne a && isMinusOne b then 1 else toNat a * toNat b :=
  Residue.toNat_foldSigns ha hb (hc.length_halves ha hb) hc.toNat_eq

theorem IsProduct.foldSigns_spec :
    (foldSigns a b c.words).length = 2 * half ∧
      residue half (foldSigns a b c.words) = residue half a * residue half b := by
  have hlen := hc.length_halves ha hb
  exact ⟨by rw [length_foldSigns, hlen], residue_foldSigns ha hb hlen hc.toNat_eq⟩

end Halves

section Coefficients

variable {f : Words × Words → Product}

/-- The pointwise products of two spectra, completed from the products of their low halves. -/
def completed (p : Plan) (f : Words × Words → Product) (x y : Words) : List Words :=
  ((spectrum p x).zip (spectrum p y)).map fun xy => foldSigns xy.1 xy.2 (f xy).words

theorem coefficients_eq (p : Plan) (f : Words × Words → Product) (x y : Words) :
    coefficients p ((spectrum p x).zip (spectrum p y))
      (((spectrum p x).zip (spectrum p y)).map f) = interpolate p (completed p f x y) := by
  rw [coefficients, List.zipWith_map_right, List.zipWith_self]
  rfl

variable (hf : ∀ xy, IsProduct (xy.1.take p.ringWords) (xy.2.take p.ringWords) (f xy))

include hf

theorem completed_spec (hn : 6 ≤ p.n) (x y : Words) :
    Shaped p.ringWords p.length (completed p f x y) ∧ ∀ i < p.length,
      residueAt p.ringWords (completed p f x y) i =
        residueAt p.ringWords (spectrum p x) i * residueAt p.ringWords (spectrum p y) i :=
  map_zip_spec (shaped_spectrum hn x) (shaped_spectrum hn y) fun a ha b hb =>
    IsProduct.foldSigns_spec (canonical_spectrum hn x a ha) (canonical_spectrum hn y b hb)
      (hf (a, b))

/-- The blocks end at the middle of the transform, so the coefficients do not wrap around. -/
theorem residueAt_interpolate_completed (hx : Fits p x.length) (hy : Fits p y.length)
    (hi : i < p.length) :
    residueAt p.ringWords (interpolate p (completed p f x y)) i =
      (p.coefficient (toNat x) (toNat y) i : FermatRing p.ringWords) := by
  have hn := hx.six_le
  obtain ⟨hshape, hproduct⟩ := completed_spec hf hn x y
  have hdigits : ∀ z : Words, ∀ j < p.length, residueAt p.ringWords (p.blocks z) j =
      Nat.castRingHom (FermatRing p.ringWords) (digit p.blockBits (toNat z) j) :=
    fun z _ hj => residueAt_blocks hn z hj
  have hwrap := hx.coefficient_eq_zero hy (Nat.le_add_left p.length i)
  rw [coefficient] at hwrap
  rw [residueAt_interpolate_mul hx.five_le (shaped_blocks hn x) (shaped_blocks hn y) hshape _ hi,
    negacyclic, diagonal_congr (hdigits x) (hdigits y), diagonal_congr (hdigits x) (hdigits y),
    ← map_diagonal, ← map_diagonal, hwrap, map_zero, sub_zero]
  · rfl
  · intro j hj
    rw [hproduct j hj, residueAt_spectrum hn x hj, residueAt_spectrum hn y hj]

theorem shaped_coefficients (hn : 6 ≤ p.n) (x y : Words) :
    Shaped p.ringWords p.length (coefficients p ((spectrum p x).zip (spectrum p y))
      (((spectrum p x).zip (spectrum p y)).map f)) := by
  rw [coefficients_eq]
  exact shaped_interpolate (completed_spec hf hn x y).1

theorem canonical_coefficients (hn : 6 ≤ p.n) (x y : Words) :
    ∀ c ∈ coefficients p ((spectrum p x).zip (spectrum p y))
      (((spectrum p x).zip (spectrum p y)).map f), Canonical p.ringWords c := by
  rw [coefficients_eq]
  exact canonical_interpolate (completed_spec hf hn x y).1

theorem toNat_coefficients (hx : Fits p x.length) (hy : Fits p y.length)
    (hc : (coefficients p ((spectrum p x).zip (spectrum p y))
      (((spectrum p x).zip (spectrum p y)).map f))[i]? = some c) :
    toNat c = p.coefficient (toNat x) (toNat y) i % (2 ^ (32 * p.ringWords) + 1) := by
  have hshape := shaped_coefficients hf hx.six_le x y
  have hi : i < p.length := hshape.length_eq ▸ (List.getElem?_eq_some_iff.mp hc).1
  have hcanonical := canonical_coefficients hf hx.six_le x y c (List.mem_of_getElem? hc)
  rw [coefficients_eq] at hc
  have hresidue : residue p.ringWords c =
      ((p.coefficient (toNat x) (toNat y) i : Int) : FermatRing p.ringWords) := by
    rw [← residueAt_eq hc, residueAt_interpolate_completed hf hx hy hi, Int.cast_natCast]
  exact_mod_cast hcanonical.toNat_eq_emod hresidue

end Coefficients

theorem toNat_correction (hn : 6 ≤ p.n) (packed : Words) (i : Nat)
    (hlen : c.length = p.residueWords) :
    (toNat (correction p packed i c) : Int) =
      ((toNat (extract packed (i * p.slotBits) p.dyadicBits) : Int) - toNat c) %
        2 ^ p.dyadicBits :=
  toNat_subLow (by rw [length_extract]) (hlen ▸ wordsFor_dyadicBits_le hn)

/-- A reduced coefficient and its correction give the coefficient. -/
theorem toNat_add_correction (hx : Fits p x.length) (hy : Fits p y.length)
    (hpacked : toNat packed = toNat (p.pack x) * toNat (p.pack y)) (hi : i < p.length)
    (hlen : c.length = p.residueWords)
    (hc : toNat c = p.coefficient (toNat x) (toNat y) i % (2 ^ (32 * p.ringWords) + 1)) :
    toNat c + toNat (correction p packed i c) * (2 ^ (32 * p.ringWords) + 1) =
      p.coefficient (toNat x) (toNat y) i := by
  have hn := hx.six_le
  have hfield := toNat_extract_packed hx hy hpacked hi
  have heta := toNat_correction hn packed i hlen
  have hdyadic : p.dyadicBits ≤ 32 * p.ringWords := by
    have h := dyadicBits_le_blockBits hn
    rw [thirtyTwo_mul_ringWords hx.five_le, ← two_mul_blockBits (Nat.one_le_of_lt hn)]
    omega
  have hmodulus : ((2 ^ p.dyadicBits : Nat) : Int) ∣
      ((2 ^ (32 * p.ringWords) + 1 : Nat) : Int) - 1 := by
    push_cast
    rw [add_sub_cancel_right]
    exact pow_dvd_pow 2 hdyadic
  rw [hfield, hc] at heta
  rw [hc]
  exact recover hmodulus (coefficient_lt hn ..) (by push_cast at heta ⊢; exact heta)

@[simp] theorem length_addCoefficient (p : Plan) (packed z : Words) (i : Nat) (c : Words) :
    (addCoefficient p packed z i c).length = z.length := by
  simp [addCoefficient]

theorem toNat_addCoefficient (hn : 6 ≤ p.n) (packed z : Words) (i : Nat) (c : Words) :
    toNat (addCoefficient p packed z i c) =
      (toNat z + (toNat c + toNat (correction p packed i c) * (2 ^ (32 * p.ringWords) + 1)) *
        (2 ^ p.blockBits) ^ i) % 2 ^ (32 * z.length) := by
  simp only [addCoefficient, toNat_addAt, length_addAt]
  rw [Nat.mod_add_mod, Nat.add_assoc, Nat.mod_add_mod, Nat.mul_add, Nat.pow_add,
    two_pow_offset hn]
  congr 1
  ring

/-- The sum behind the first `count` coefficients. -/
def accumulated (p : Plan) (outLen : Nat) (packed : Words) (cs : List Words) (count : Nat) :
    Words :=
  (cs.take count).zipIdx.foldl (fun z ci => addCoefficient p packed z ci.2 ci.1) (zeros outLen)

section Accumulated

variable {cs : List Words} {outLen count : Nat}

theorem accumulated_succ (hc : cs[count]? = some c) :
    accumulated p outLen packed cs (count + 1) =
      addCoefficient p packed (accumulated p outLen packed cs count) count c := by
  have htake : (cs.take count).length = count := by
    have := (List.getElem?_eq_some_iff.mp hc).1
    rw [List.length_take]
    omega
  rw [accumulated, List.take_add_one, hc, Option.toList_some, List.zipIdx_append,
    List.foldl_append, List.zipIdx_singleton, List.foldl_cons, List.foldl_nil, htake, Nat.zero_add]
  rfl

theorem accumulated_succ_of_length_le (h : cs.length ≤ count) :
    accumulated p outLen packed cs (count + 1) = accumulated p outLen packed cs count := by
  rw [accumulated, List.take_add_one, List.getElem?_eq_none h, Option.toList_none, List.append_nil]
  rfl

end Accumulated

section Recombine

variable {cs : List Words} {outLen : Nat} (hx : Fits p x.length) (hy : Fits p y.length)
  (hpacked : toNat packed = toNat (p.pack x) * toNat (p.pack y))
  (hcs : Shaped p.ringWords p.length cs)
  (hvalue : ∀ i c, cs[i]? = some c →
    toNat c = p.coefficient (toNat x) (toNat y) i % (2 ^ (32 * p.ringWords) + 1))
  (hout : toNat x * toNat y < 2 ^ (32 * outLen))

include hx hy hpacked hcs hvalue hout

/-- Behind any number of coefficients the sum is exact: as a part of the product it fits. -/
theorem accumulated_spec (count : Nat) :
    (accumulated p outLen packed cs count).length = outLen ∧
      toNat (accumulated p outLen packed cs count) =
        ∑ i ∈ range count, p.coefficient (toNat x) (toNat y) i * (2 ^ p.blockBits) ^ i := by
  induction count with
  | zero => simp [accumulated]
  | succ count ih =>
      obtain ⟨ihLen, ihValue⟩ := ih
      have hfits := (hx.sum_coefficient_le hy (count + 1)).trans_lt hout
      rw [sum_range_succ] at hfits ⊢
      rcases Nat.lt_or_ge count cs.length with hlow | hhigh
      · have hget : cs[count]? = some cs[count] := List.getElem?_eq_getElem hlow
        have hlen : cs[count].length = p.residueWords :=
          hcs.width_eq _ (List.getElem_mem hlow)
        have hsum := toNat_add_correction hx hy hpacked (hcs.length_eq ▸ hlow) hlen
          (hvalue count _ hget)
        rw [accumulated_succ hget, length_addCoefficient, toNat_addCoefficient hx.six_le, hsum,
          ihLen, ihValue, Nat.mod_eq_of_lt hfits]
        exact ⟨rfl, rfl⟩
      · have hzero := hx.coefficient_eq_zero hy (hcs.length_eq ▸ hhigh)
        rw [accumulated_succ_of_length_le hhigh, hzero, Nat.zero_mul, Nat.add_zero]
        exact ⟨ihLen, ihValue⟩

theorem recombine_spec :
    (recombine p outLen packed cs).length = outLen ∧
      toNat (recombine p outLen packed cs) = toNat x * toNat y := by
  obtain ⟨hlen, hsum⟩ := accumulated_spec hx hy hpacked hcs hvalue hout (p.blockCount outLen)
  exact ⟨hlen, hsum.trans (hx.sum_coefficient_of_lt hy hout)⟩

end Recombine

/-- One level of the transform route, whatever routes computed the smaller products. -/
theorem assemble_isProduct {a b : Words} {packed : Product} {f : Words × Words → Product}
    (ha : Fits p (trim a).length) (hb : Fits p (trim b).length)
    (hpacked : IsProduct (p.pack (trim a)) (p.pack (trim b)) packed)
    (hf : ∀ xy, IsProduct (xy.1.take p.ringWords) (xy.2.take p.ringWords) (f xy)) :
    IsProduct a b (assemble p (a.length + b.length)
      ((spectrum p (trim a)).zip (spectrum p (trim b))) packed
      (((spectrum p (trim a)).zip (spectrum p (trim b))).map f)) := by
  obtain ⟨hlen, hvalue⟩ := recombine_spec ha hb hpacked.toNat_eq
    (shaped_coefficients hf ha.six_le _ _) (fun _ _ hc => toNat_coefficients hf ha hb hc)
    (toNat_trim_mul_lt a b)
  rw [toNat_trim, toNat_trim] at hvalue
  exact ⟨hlen, hvalue⟩

end FermatMul.Product
