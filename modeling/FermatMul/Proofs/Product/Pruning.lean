import FermatMul.Proofs.Product.Events

namespace FermatMul

open FermatMul.Words

def Event.isTransform : Event → Bool
  | .transform .. => true
  | _ => false

/-- What is left of the events of a product when some of the products in it are taken out, each with
everything nested in it. -/
inductive Pruned (t : Tuning) : List Event → List Event → Prop
  | removed {es : List Event} (hnested : Nested t (fun _ _ => True) es) : Pruned t es []
  | kept {m n len outLen : Nat} {packed packed' : List Event}
      {pointwise : List (List Event × List Event)}
      (hcount : pointwise.length = len)
      (hpacked : Pruned t packed packed')
      (hpointwise : ∀ es ∈ pointwise, Pruned t es.1 es.2) :
      Pruned t
        (.transform m n len outLen :: packed ++
          .pointwise len (t.spreads len) :: (pointwise.map Prod.fst).flatten)
        (.transform m n len outLen :: packed' ++
          .pointwise len (t.spreads len) :: (pointwise.map Prod.snd).flatten)

namespace Pruned

variable {t : Tuning} {es es' : List Event}

theorem flatten_sublist {pairs : List (List Event × List Event)}
    (h : ∀ es ∈ pairs, es.2.Sublist es.1) :
    (pairs.map Prod.snd).flatten.Sublist (pairs.map Prod.fst).flatten := by
  induction pairs with
  | nil => exact List.Sublist.refl _
  | cons es pairs ih =>
      rw [List.map_cons, List.map_cons, List.flatten_cons, List.flatten_cons]
      apply List.Sublist.append
      · exact h es List.mem_cons_self
      · exact ih fun es' hes => h es' (List.mem_cons_of_mem es hes)

theorem sublist (h : Pruned t es es') : es'.Sublist es := by
  induction h with
  | removed _ => exact List.nil_sublist _
  | kept _ _ _ ihpacked ihpointwise =>
      apply List.Sublist.append
      · exact ihpacked.cons_cons _
      · exact (flatten_sublist ihpointwise).cons_cons _

end Pruned

theorem Tuning.effectiveThreshold_mono {t t' : Tuning} (h : t.threshold ≤ t'.threshold) :
    t.effectiveThreshold ≤ t'.effectiveThreshold :=
  max_le_max_right _ h

namespace Factors

variable {t t' : Tuning} {f : Factors}

theorem Long.of_le (hle : t.effectiveThreshold ≤ t'.effectiveThreshold) (h : f.Long t') :
    f.Long t :=
  ⟨h.1, fun hlt => h.2 (Nat.lt_of_lt_of_le hlt hle)⟩

theorem pruned_events (hparallel : t.parallel = t'.parallel)
    (hle : t.effectiveThreshold ≤ t'.effectiveThreshold) (f : Factors) :
    Pruned t (f.events t) (f.events t') := by
  induction f using induct t with
  | direct f h =>
      rw [events_of_not_long h, events_of_not_long (mt (Long.of_le hle) h)]
      exact .removed .nil
  | long f h ihpacked ihpointwise =>
      by_cases h' : f.Long t'
      · -- both runs go through the transform, with the same products inside
        have hspreads : t'.spreads f.plan.length = t.spreads f.plan.length := by
          rw [Tuning.spreads, Tuning.spreads, hparallel]
        let pairs := f.pointwise.map fun g => (g.events t, g.events t')
        have hfst : f.pointwise.map (events t) = pairs.map Prod.fst := by
          rw [List.map_map]
          rfl
        have hsnd : f.pointwise.map (events t') = pairs.map Prod.snd := by
          rw [List.map_map]
          rfl
        rw [events_of_long h, events_of_long h', hspreads, hfst, hsnd]
        refine .kept ?_ ihpacked ?_
        · rw [List.length_map, h.length_pointwise]
        · intro es hes
          obtain ⟨g, hg, rfl⟩ := List.mem_map.mp hes
          exact ihpointwise g hg
      · rw [events_of_not_long h']
        exact .removed ((f.nested_events t).mono fun _ _ _ => trivial)

theorem events_eq_of_effectiveThreshold_eq (hparallel : t.parallel = t'.parallel)
    (heq : t.effectiveThreshold = t'.effectiveThreshold) (f : Factors) :
    f.events t = f.events t' := by
  have hless := (f.pruned_events hparallel heq.le).sublist
  have hmore := (f.pruned_events hparallel.symm heq.ge).sublist
  exact hmore.antisymm hless

end Factors

/-- A run at the second settings against one at the first, which have a lower threshold. Both trace
the recursion from the same factors. -/
structure Coarsened (t t' : Tuning) (f : Factors) (fine coarse : Integer.Traced) : Prop where
  traces_fine : Integer.Traces t f fine
  traces_coarse : Integer.Traces t' f coarse
  pruned : Pruned t fine.traceEvents coarse.traceEvents
  sublist : coarse.traceEvents.Sublist fine.traceEvents
  countP_le : coarse.traceEvents.countP Event.isTransform ≤
    fine.traceEvents.countP Event.isTransform
  eq_of_le : t.threshold ≤ 512 → t'.threshold ≤ 512 → coarse.traceEvents = fine.traceEvents
  value_eq : coarse.value = fine.value

theorem Factors.coarsened {t t' : Tuning} (hparallel : t.parallel = t'.parallel)
    (hle : t.threshold ≤ t'.threshold) {f : Factors} {fine coarse : Integer.Traced}
    (hfine : Integer.Traces t f fine) (hcoarse : Integer.Traces t' f coarse)
    (hvalue : coarse.value = fine.value) : Coarsened t t' f fine coarse := by
  have hpruned := f.pruned_events hparallel (Tuning.effectiveThreshold_mono hle)
  rw [← hfine.traceEvents_eq, ← hcoarse.traceEvents_eq] at hpruned
  refine ⟨hfine, hcoarse, hpruned, hpruned.sublist, hpruned.sublist.countP_le, ?_, hvalue⟩
  intro hlow hhigh
  have heq : t.effectiveThreshold = t'.effectiveThreshold := by
    rw [Tuning.effectiveThreshold, Tuning.effectiveThreshold, Limits.minThreshold,
      Nat.max_eq_right hlow, Nat.max_eq_right hhigh]
  rw [hfine.traceEvents_eq, hcoarse.traceEvents_eq]
  exact (f.events_eq_of_effectiveThreshold_eq hparallel heq).symm

namespace Integer

/-- Raising the threshold takes whole products out of what products and squares report, in the order
of runs that do not spread their work, and changes no result; up to 512 bits it changes nothing at
all. -/
theorem thresholds_prune (parallel : Nat) {low high : Nat} (hle : low ≤ high) (a b : Int) :
    let t : Tuning := { threshold := low, parallel }
    let t' : Tuning := { threshold := high, parallel }
    Coarsened t t' (.pair (ofMagnitude a.natAbs) (ofMagnitude b.natAbs))
        (multiply t a b) (multiply t' a b) ∧
      Coarsened t t' (.twice (ofMagnitude a.natAbs)) (square t a) (square t' a) := by
  intro t t'
  have hparallel : t.parallel = t'.parallel := rfl
  constructor
  · apply Factors.coarsened hparallel hle (traces_multiply t a b) (traces_multiply t' a b)
    rw [value_multiply, value_multiply]
  · apply Factors.coarsened hparallel hle (traces_square t a) (traces_square t' a)
    rw [value_square, value_square]

theorem thresholds_prune_sixteen :
    (multiply { threshold := 0 } (2 ^ 511) (-3)).traceEvents ≠ [] ∧
      (multiply { threshold := 513 } (2 ^ 511) (-3)).traceEvents = [] ∧
      Coarsened { threshold := 0 } { threshold := 513 }
        (.pair (ofMagnitude (2 ^ 511 : Int).natAbs) (ofMagnitude (-3 : Int).natAbs))
        (multiply { threshold := 0 } (2 ^ 511) (-3))
        (multiply { threshold := 513 } (2 ^ 511) (-3)) ∧
      (multiply { threshold := 512 } (2 ^ 511) (-3)).traceEvents =
        (multiply { threshold := 0 } (2 ^ 511) (-3)).traceEvents := by
  refine ⟨?_, ?_, (thresholds_prune 256 (by decide) (2 ^ 511) (-3)).1, ?_⟩
  · rw [traceEvents_multiply_ne_nil_iff]
    decide +kernel
  · refine Decidable.not_not.mp (mt (traceEvents_multiply_ne_nil_iff _ _ _).mp ?_)
    decide +kernel
  · have hle : (0 : Nat) ≤ 512 := by decide
    exact (thresholds_prune 256 hle (2 ^ 511) (-3)).1.eq_of_le hle (Nat.le_refl _)

end Integer

end FermatMul
