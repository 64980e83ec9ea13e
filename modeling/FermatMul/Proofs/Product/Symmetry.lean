import Mathlib.Data.Sym.Sym2
import FermatMul.Proofs.Product.Events

namespace FermatMul

open FermatMul.Plan FermatMul.Words

theorem Product.plan_comm (a b : Words) : plan a b = plan b a := by
  rw [plan, plan, Nat.max_comm]

namespace Factors

variable {t : Tuning} {f g : Factors}

/-- The two factors in no order; those of a square are the same. -/
def operands (f : Factors) : Sym2 Words := s(f.left, f.right)

def route (t : Tuning) (f : Factors) : Route := (f.product t).route

theorem route_of_not_long (h : ¬ f.Long t) : f.route t = .direct := by
  rw [route, product_of_not_long h]
  rfl

theorem route_of_long (h : f.Long t) :
    f.route t =
      .transform f.plan f.totalLength (f.packed.route t) (f.pointwise.map (route t)) := by
  rw [route, product_of_long h, Product.assemble, List.map_map]
  rfl

/-- What does not depend on the order of two vectors depends on the operands only. -/
theorem eq_of_operands_eq {α : Type} {F : Words → Words → α} (hcomm : ∀ a b, F a b = F b a)
    (h : f.operands = g.operands) : F f.left f.right = F g.left g.right := by
  rcases Sym2.eq_iff.mp h with ⟨hleft, hright⟩ | ⟨hleft, hright⟩
  · rw [hleft, hright]
  · rw [hleft, hright, hcomm]

theorem plan_eq_of_operands_eq (h : f.operands = g.operands) : f.plan = g.plan :=
  eq_of_operands_eq Product.plan_comm h

theorem totalLength_eq_of_operands_eq (h : f.operands = g.operands) :
    f.totalLength = g.totalLength :=
  eq_of_operands_eq (fun a b => Nat.add_comm a.length b.length) h

theorem long_pair_comm (a b : Words) : (pair a b).Long t = (pair b a).Long t := by
  rw [Long, Long, or_comm, Nat.max_comm]
  rfl

theorem long_iff_of_operands_eq (h : f.operands = g.operands) : f.Long t ↔ g.Long t :=
  iff_of_eq (eq_of_operands_eq long_pair_comm h)

theorem operands_packed (f : Factors) :
    f.packed.operands = f.operands.map fun x => f.plan.pack (trim x) := by
  rw [operands, packed_left, packed_right]
  rfl

/-- The operands of the products of the low halves. -/
def halves (p : Plan) (x y : Words) : List (Sym2 Words) :=
  List.zipWith (fun a b => s(a.take p.ringWords, b.take p.ringWords))
    (Product.spectrum p (trim x)) (Product.spectrum p (trim y))

theorem halves_comm (p : Plan) (x y : Words) : halves p x y = halves p y x :=
  List.zipWith_comm_of_comm (fun _ _ => Sym2.eq_swap) ..

theorem operands_pointwise (f : Factors) :
    f.pointwise.map operands = halves f.plan f.left f.right := by
  rw [pointwise, List.map_map, spectra_eq_zip, List.zip_eq_zipWith, List.map_zipWith]
  rfl

theorem operands_packed_eq (h : f.operands = g.operands) :
    f.packed.operands = g.packed.operands := by
  rw [operands_packed, operands_packed, h, plan_eq_of_operands_eq h]

theorem operands_pointwise_eq (h : f.operands = g.operands) :
    f.pointwise.map operands = g.pointwise.map operands := by
  rw [operands_pointwise, operands_pointwise, plan_eq_of_operands_eq h]
  exact eq_of_operands_eq (halves_comm g.plan) h

theorem route_eq_of_operands_eq (h : f.operands = g.operands) : f.route t = g.route t := by
  -- on the products that the first one starts; each meets one of the second with its operands
  induction f using induct t generalizing g with
  | direct f hshort =>
      rw [route_of_not_long hshort, route_of_not_long (mt (long_iff_of_operands_eq h).mpr hshort)]
  | long f hlong ihpacked ihpointwise =>
      have hpacked : f.packed.route t = g.packed.route t := ihpacked (operands_packed_eq h)
      have hpointwise : f.pointwise.map (route t) = g.pointwise.map (route t) :=
        map_eq_map_of_key_eq (operands_pointwise_eq h) fun f' hf' _ h' => ihpointwise f' hf' h'
      rw [route_of_long hlong, route_of_long ((long_iff_of_operands_eq h).mp hlong), hpacked,
        hpointwise, plan_eq_of_operands_eq h, totalLength_eq_of_operands_eq h]

theorem words_eq_of_operands_eq (h : f.operands = g.operands) :
    (f.product t).words = (g.product t).words := by
  obtain ⟨hlen, hvalue⟩ := f.isProduct t
  obtain ⟨hlen', hvalue'⟩ := g.isProduct t
  apply eq_of_toNat_eq
  · rw [hlen, hlen']
    exact totalLength_eq_of_operands_eq h
  · rw [hvalue, hvalue']
    exact eq_of_operands_eq (fun a b => Nat.mul_comm (toNat a) (toNat b)) h

/-- A product is determined by its operands in no order, with the route to it. -/
theorem product_eq_of_operands_eq (h : f.operands = g.operands) : f.product t = g.product t := by
  have hroute : (f.product t).route = (g.product t).route := route_eq_of_operands_eq h
  calc
    f.product t = ⟨(f.product t).words, (f.product t).route⟩ := rfl
    _ = ⟨(g.product t).words, (g.product t).route⟩ := by rw [words_eq_of_operands_eq h, hroute]
    _ = g.product t := rfl

theorem events_eq_of_operands_eq (h : f.operands = g.operands) : f.events t = g.events t := by
  rw [events, events, product_eq_of_operands_eq h]

theorem operands_twice (a : Words) : (twice a).operands = (pair a a).operands := rfl

theorem operands_pair_comm (a b : Words) : (pair a b).operands = (pair b a).operands :=
  Sym2.eq_swap

end Factors

namespace Integer

/-- A square is the product of its operand by itself and a product does not depend on the order of
its operands, with all the decisions on the way to it. What is traced of them is what the recursion
reports, in the order of a run that does not spread its work, and there is something to trace for
operands that are long enough. So squares report the transforms of products, and neither the order
of the operands nor a sign changes what is reported. -/
theorem trace_symmetric (t : Tuning) :
    (∀ x y : Words,
      Product.square t x = Product.multiply t x x ∧
        Product.multiply t x y = Product.multiply t y x) ∧
    ∀ a b : Int,
      Traces t (.pair (ofMagnitude a.natAbs) (ofMagnitude b.natAbs)) (multiply t a b) ∧
      Traces t (.twice (ofMagnitude a.natAbs)) (square t a) ∧
      ((multiply t a b).traceEvents ≠ [] ↔
        ¬ (a = 0 ∨ b = 0) ∧
          max t.threshold 512 ≤ max (binaryLength a.natAbs) (binaryLength b.natAbs)) ∧
      (square t a).traceEvents = (multiply t a a).traceEvents ∧
      (multiply t a b).traceEvents = (multiply t b a).traceEvents ∧
      (multiply t (-a) b).traceEvents = (multiply t a b).traceEvents ∧
      (multiply t a (-b)).traceEvents = (multiply t a b).traceEvents ∧
      (square t (-a)).traceEvents = (square t a).traceEvents := by
  refine ⟨fun x y => ⟨?_, ?_⟩, fun a b => ?_⟩
  · exact Factors.product_eq_of_operands_eq (Factors.operands_twice x)
  · exact Factors.product_eq_of_operands_eq (Factors.operands_pair_comm x y)
  · refine ⟨traces_multiply t a b, traces_square t a, traceEvents_multiply_ne_nil_iff t a b, ?_⟩
    simp only [traceEvents_multiply, traceEvents_square, Int.natAbs_neg, and_true]
    constructor
    · exact Factors.events_eq_of_operands_eq (Factors.operands_twice _)
    · exact Factors.events_eq_of_operands_eq (Factors.operands_pair_comm _ _)

theorem trace_symmetric_sixteen :
    (square { threshold := 0 } (2 ^ 511)).traceEvents ≠ [] ∧
      (square { threshold := 0 } (2 ^ 511)).traceEvents =
        (multiply { threshold := 0 } (2 ^ 511) (2 ^ 511)).traceEvents ∧
      (multiply { threshold := 0 } (2 ^ 511) (-3)).traceEvents ≠ [] ∧
      (multiply { threshold := 0 } (2 ^ 511) (-3)).traceEvents =
        (multiply { threshold := 0 } (-3) (2 ^ 511)).traceEvents := by
  obtain ⟨_, htraces⟩ := trace_symmetric { threshold := 0 }
  obtain ⟨_, _, hne, hsquare, _⟩ := htraces (2 ^ 511) (2 ^ 511)
  obtain ⟨_, _, hne', _, hcomm, _⟩ := htraces (2 ^ 511) (-3)
  refine ⟨?_, hsquare, hne'.mpr (by decide +kernel), hcomm⟩
  rw [hsquare]
  exact hne.mpr (by decide +kernel)

end Integer

end FermatMul
