import FermatMul.Proofs.Product.Recombination
import FermatMul.Proofs.Traversal

/-!
The recursion behind a product. A product through the transform starts one product of the packed
operands and one for each pair of low halves. All of them are shorter than the operands without
their zero words, so the recursion ends.
-/

namespace FermatMul

open FermatMul.Plan FermatMul.Words

namespace Product

theorem fits_plan {t : Tuning} {a b : Words}
    (h : ¬ max (significantBits a) (significantBits b) < t.effectiveThreshold) :
    Fits (plan a b) (trim a).length ∧ Fits (plan a b) (trim b).length := by
  have hfits : Fits (plan a b) (max (trim a).length (trim b).length) :=
    fits_ofSize (sixteen_le_max_length_trim h)
  exact ⟨hfits.mono (Nat.le_max_left ..), hfits.mono (Nat.le_max_right ..)⟩

theorem map_pair_eq_zip (xs : List Words) : xs.map (fun x => (x, x)) = xs.zip xs := by
  rw [List.zip_eq_zipWith, List.zipWith_self]

end Product

/-- What a product multiplies: two vectors, or one vector by itself. -/
inductive Factors where
  | pair (a b : Words)
  | twice (a : Words)
  deriving DecidableEq, Repr

namespace Factors

variable {t : Tuning} {f g : Factors}

def left : Factors → Words
  | pair a _ => a
  | twice a => a

def right : Factors → Words
  | pair _ b => b
  | twice a => a

/-- The length of both factors together, which is that of their product. -/
def totalLength (f : Factors) : Nat := f.left.length + f.right.length

def longest (f : Factors) : Nat := max f.left.length f.right.length

/-- The lengths without the zero words at the top. -/
def trimmedLength (f : Factors) : Nat := (trim f.left).length + (trim f.right).length

def trimmedLongest (f : Factors) : Nat := max (trim f.left).length (trim f.right).length

/-- Neither factor is zero, and one of them reaches the threshold: the product goes through the
transform. -/
def Long (t : Tuning) (f : Factors) : Prop :=
  ¬ (significantBits f.left = 0 ∨ significantBits f.right = 0) ∧
    ¬ max (significantBits f.left) (significantBits f.right) < t.effectiveThreshold

instance decidableLong (t : Tuning) (f : Factors) : Decidable (f.Long t) :=
  inferInstanceAs (Decidable (_ ∧ _))

def plan (f : Factors) : Plan := Product.plan f.left f.right

def spectra : Factors → List (Words × Words)
  | pair a b =>
      let p := Product.plan a b
      (Product.spectrum p (trim a)).zip (Product.spectrum p (trim b))
  | twice a => (Product.spectrum (Product.plan a a) (trim a)).map fun x => (x, x)

/-- The packed low bits of both factors. -/
def packed : Factors → Factors
  | pair a b =>
      let p := Product.plan a b
      pair (p.pack (trim a)) (p.pack (trim b))
  | twice a => twice ((Product.plan a a).pack (trim a))

/-- The low halves of the spectra, in index order. -/
def pointwise (f : Factors) : List Factors :=
  f.spectra.map fun xy => pair (xy.1.take f.plan.ringWords) (xy.2.take f.plan.ringWords)

/-- The product without a transform. -/
def direct (f : Factors) : Product where
  words :=
    if significantBits f.left = 0 ∨ significantBits f.right = 0 then zeros f.totalLength
    else longProduct f.left f.right
  route := .direct

def product (t : Tuning) : Factors → Product
  | pair a b => Product.multiply t a b
  | twice a => Product.square t a

/-- The recursion to a depth; none where the depth is used up before it ends. -/
def unroll (t : Tuning) : Nat → Factors → Option Product
  | 0, _ => none
  | depth + 1, f =>
      if f.Long t then do
        let packed ← unroll t depth f.packed
        let pointwise ← f.pointwise.mapM (unroll t depth)
        return Product.assemble f.plan f.totalLength f.spectra packed pointwise
      else some f.direct

theorem spectra_eq_zip (f : Factors) :
    f.spectra =
      (Product.spectrum f.plan (trim f.left)).zip (Product.spectrum f.plan (trim f.right)) := by
  cases f with
  | pair a b => rfl
  | twice a => exact Product.map_pair_eq_zip _

theorem packed_left (f : Factors) : f.packed.left = f.plan.pack (trim f.left) := by
  cases f <;> rfl

theorem packed_right (f : Factors) : f.packed.right = f.plan.pack (trim f.right) := by
  cases f <;> rfl

/-- One level of the recursion, for products and squares alike. -/
theorem product_eq (t : Tuning) (f : Factors) :
    f.product t =
      if significantBits f.left = 0 ∨ significantBits f.right = 0 then
        { words := zeros f.totalLength, route := .direct }
      else if max (significantBits f.left) (significantBits f.right) < t.effectiveThreshold then
        { words := longProduct f.left f.right, route := .direct }
      else
        Product.assemble f.plan f.totalLength f.spectra (f.packed.product t)
          (f.pointwise.map (·.product t)) := by
  cases f with
  | pair a b =>
      change Product.multiply t a b = _
      rw [Product.multiply, pointwise, List.map_map]
      rfl
  | twice a =>
      change Product.square t a = _
      rw [Product.square, pointwise, List.map_map, totalLength]
      simp only [left, right, or_self, max_self, Nat.two_mul]
      rw [spectra, List.map_map]
      rfl

theorem product_of_not_long (h : ¬ f.Long t) : f.product t = f.direct := by
  rw [product_eq, direct]
  split
  case isTrue hzero => rfl
  case isFalse hne => rw [if_pos (Decidable.not_not.mp fun hlong => h ⟨hne, hlong⟩)]

/-- A long product is put together from the products that it starts. -/
theorem product_of_long (h : f.Long t) :
    f.product t =
      Product.assemble f.plan f.totalLength f.spectra (f.packed.product t)
        (f.pointwise.map (·.product t)) := by
  rw [product_eq, if_neg h.1, if_neg h.2]

theorem Long.sixteen_le (h : f.Long t) : 16 ≤ f.trimmedLongest :=
  Product.sixteen_le_max_length_trim h.2

theorem Long.fits (h : f.Long t) :
    Fits f.plan (trim f.left).length ∧ Fits f.plan (trim f.right).length :=
  Product.fits_plan h.2

theorem Long.six_le (h : f.Long t) : 6 ≤ f.plan.n := h.fits.1.six_le

theorem trimmedLength_le (f : Factors) : f.trimmedLength ≤ f.totalLength :=
  Nat.add_le_add (length_trim_le f.left) (length_trim_le f.right)

theorem totalLength_packed (f : Factors) :
    f.packed.totalLength =
      f.plan.packedLength (trim f.left).length + f.plan.packedLength (trim f.right).length := by
  rw [totalLength, packed_left, packed_right, length_pack, length_pack]

/-- What the products of the low halves multiply. -/
theorem Long.eq_pair_of_mem_pointwise (h : f.Long t) (hg : g ∈ f.pointwise) :
    ∃ x y, g = pair x y ∧ x.length = f.plan.ringWords ∧ y.length = f.plan.ringWords := by
  have hwidth : ∀ z, ∀ x ∈ Product.spectrum f.plan z,
      (x.take f.plan.ringWords).length = f.plan.ringWords := by
    intro z x hx
    have hlen := (Product.shaped_spectrum h.six_le z).width_eq x hx
    rw [List.length_take]
    omega
  rw [pointwise, spectra_eq_zip] at hg
  obtain ⟨⟨x, y⟩, hxy, rfl⟩ := List.mem_map.mp hg
  obtain ⟨hx, hy⟩ := List.of_mem_zip hxy
  exact ⟨_, _, rfl, hwidth _ x hx, hwidth _ y hy⟩

theorem Long.length_pointwise (h : f.Long t) : f.pointwise.length = f.plan.length := by
  have hleft := (Product.shaped_spectrum h.six_le (trim f.left)).length_eq
  have hright := (Product.shaped_spectrum h.six_le (trim f.right)).length_eq
  rw [pointwise, List.length_map, spectra_eq_zip, List.length_zip, hleft, hright, Nat.min_self]

theorem Long.totalLength_packed_lt (h : f.Long t) : f.packed.totalLength < f.trimmedLength := by
  rw [totalLength_packed]
  exact packedLength_add_lt h.sixteen_le

theorem Long.totalLength_pointwise (h : f.Long t) (hg : g ∈ f.pointwise) :
    g.totalLength = 2 * f.plan.ringWords := by
  obtain ⟨x, y, rfl, hx, hy⟩ := h.eq_pair_of_mem_pointwise hg
  rw [totalLength, left, right, hx, hy, Nat.two_mul]

theorem Long.two_mul_ringWords_lt (h : f.Long t) : 2 * f.plan.ringWords < f.trimmedLongest :=
  Plan.two_mul_ringWords_lt h.sixteen_le

theorem trimmedLongest_le (f : Factors) : f.trimmedLongest ≤ f.trimmedLength :=
  Nat.max_le.mpr ⟨Nat.le_add_right .., Nat.le_add_left ..⟩

theorem Long.totalLength_lt (h : f.Long t) (hg : g ∈ f.packed :: f.pointwise) :
    g.totalLength < f.trimmedLength := by
  rcases List.mem_cons.mp hg with rfl | hg
  · exact h.totalLength_packed_lt
  · rw [h.totalLength_pointwise hg]
    exact Nat.lt_of_lt_of_le h.two_mul_ringWords_lt f.trimmedLongest_le

theorem Long.longest_packed_le (h : f.Long t) :
    5 * f.packed.longest ≤ 4 * f.trimmedLongest := by
  have hleft : 5 * f.plan.packedLength (trim f.left).length ≤ 4 * f.trimmedLongest :=
    five_mul_packedLength_le h.sixteen_le (Nat.le_max_left ..)
  have hright : 5 * f.plan.packedLength (trim f.right).length ≤ 4 * f.trimmedLongest :=
    five_mul_packedLength_le h.sixteen_le (Nat.le_max_right ..)
  rw [longest, packed_left, packed_right, length_pack, length_pack]
  omega

theorem Long.longest_le (h : f.Long t) (hg : g ∈ f.packed :: f.pointwise) :
    5 * g.longest ≤ 4 * f.trimmedLongest := by
  rcases List.mem_cons.mp hg with rfl | hg
  · exact h.longest_packed_le
  · obtain ⟨x, y, rfl, hx, hy⟩ := h.eq_pair_of_mem_pointwise hg
    have hring := h.two_mul_ringWords_lt
    rw [longest, left, right, hx, hy, Nat.max_self]
    omega

/-- Induction over the products that a product starts. -/
theorem induct (t : Tuning) {motive : Factors → Prop}
    (direct : ∀ f, ¬ f.Long t → motive f)
    (long : ∀ f, f.Long t → motive f.packed → (∀ g ∈ f.pointwise, motive g) → motive f)
    (f : Factors) : motive f := by
  induction hsize : f.totalLength using Nat.strong_induction_on generalizing f with
  | _ size ih =>
      subst hsize
      by_cases h : f.Long t
      · have hstarted : ∀ g ∈ f.packed :: f.pointwise, motive g := by
          intro g hg
          exact ih _ (Nat.lt_of_lt_of_le (h.totalLength_lt hg) f.trimmedLength_le) g rfl
        apply long f h (hstarted _ List.mem_cons_self)
        exact fun g hg => hstarted g (List.mem_cons_of_mem _ hg)
      · exact direct f h

/-- Any depth above the length of the factors suffices for the recursion. -/
theorem unroll_eq_some {depth : Nat} (hdepth : f.totalLength < depth) :
    f.unroll t depth = some (f.product t) := by
  induction depth generalizing f with
  | zero => exact absurd hdepth (Nat.not_lt_zero _)
  | succ depth ih =>
      rw [unroll]
      split
      case isTrue h =>
        have hstarted : ∀ g ∈ f.packed :: f.pointwise, g.unroll t depth = some (g.product t) := by
          intro g hg
          have hlt := h.totalLength_lt hg
          have hle := f.trimmedLength_le
          exact ih (by omega)
        have hpointwise : f.pointwise.mapM (unroll t depth) =
            some (f.pointwise.map (product t)) :=
          mapM_eq_pure fun g hg => hstarted g (List.mem_cons_of_mem _ hg)
        rw [hstarted _ List.mem_cons_self, hpointwise, product_of_long h]
        rfl
      case isFalse h => rw [product_of_not_long h]

/-- The recursion ends: unrolled to any depth above the length of its factors it gives the product.
Where it enters the transform, one factor has sixteen words or more, and every product that it
starts is shorter than both factors together and than four fifths of the longer one, each without
the zero words at its top. -/
theorem recursion_ends (t : Tuning) (f : Factors) :
    (∀ depth, f.totalLength < depth → f.unroll t depth = some (f.product t)) ∧
    (f.Long t →
      16 ≤ f.trimmedLongest ∧
      f.pointwise.length = f.plan.length ∧
      (∀ g ∈ f.pointwise, ∃ x y, g = pair x y ∧
        x.length = f.plan.ringWords ∧ y.length = f.plan.ringWords) ∧
      ∀ g ∈ f.packed :: f.pointwise,
        g.totalLength < f.trimmedLength ∧ 5 * g.longest ≤ 4 * f.trimmedLongest) := by
  refine ⟨fun depth hdepth => unroll_eq_some hdepth, fun h => ⟨h.sixteen_le, ?_, ?_, ?_⟩⟩
  · exact h.length_pointwise
  · exact fun g hg => h.eq_pair_of_mem_pointwise hg
  · exact fun g hg => ⟨h.totalLength_lt hg, h.longest_le hg⟩

theorem recursion_ends_sixteen :
    (twice (List.replicate 16 0xffffffff)).Long { threshold := 0 } ∧
      (twice (List.replicate 16 0xffffffff)).trimmedLength = 32 ∧
      (twice (List.replicate 16 0xffffffff)).packed.totalLength < 32 ∧
      (twice (List.replicate 16 0xffffffff)).pointwise.length = 32 := by
  have hlong : (twice (List.replicate 16 0xffffffff)).Long { threshold := 0 } := by
    decide +kernel
  have htrim : (twice (List.replicate 16 0xffffffff)).trimmedLength = 32 := by decide +kernel
  obtain ⟨_, hcount, _, hstarted⟩ :=
    (recursion_ends { threshold := 0 } (twice (List.replicate 16 0xffffffff))).2 hlong
  refine ⟨hlong, htrim, ?_, hcount.trans (by decide +kernel)⟩
  rw [← htrim]
  exact (hstarted _ List.mem_cons_self).1

end Factors

end FermatMul
