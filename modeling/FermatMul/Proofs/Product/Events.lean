import FermatMul.Proofs.Product.Integers
import FermatMul.Proofs.Product.Recursion

namespace FermatMul

open FermatMul.Plan FermatMul.Words

/-- The transforms of a packed product, by their `m` and the length of their product, inside a
transform of the given ones. -/
def packedWithin (m outLen : Nat) : Nat → Nat → Prop :=
  fun m' outLen' => m' ≤ m ∧ outLen' < outLen

/-- The transforms of a pointwise product inside one with coefficients modulo `2 ^ (2 ^ n) + 1`:
their products have twice `2 ^ n` bits. -/
def pointwiseWithin (n outLen : Nat) : Nat → Nat → Prop :=
  fun m' outLen' => m' ≤ n + 1 ∧ outLen' = 2 ^ (n + 1) / 32 ∧ outLen' < outLen

/-- The events of a product whose own transform, if there is one, is admitted: none, or a transform
with the events of its packed product and those of its pointwise products, in index order. -/
inductive Nested (t : Tuning) : (Nat → Nat → Prop) → List Event → Prop
  | nil {admits : Nat → Nat → Prop} : Nested t admits []
  | transform {admits : Nat → Nat → Prop} {m n len outLen : Nat} {packed : List Event}
      {pointwise : List (List Event)}
      (hadmits : admits m outLen)
      (hring : n = m / 2 + 1)
      (hsix : 6 ≤ n)
      (hlen : len = if m % 2 = 0 then 2 ^ (n - 1) else 2 ^ n)
      (hcount : pointwise.length = len)
      (hpacked : Nested t (packedWithin m outLen) packed)
      (hpointwise : ∀ es ∈ pointwise, Nested t (pointwiseWithin n outLen) es) :
      Nested t admits
        (.transform m n len outLen :: packed ++
          .pointwise len (t.spreads len) :: pointwise.flatten)

/-- Reads events against a stack of transform lengths: a transform pushes its length, pointwise
products pop the same one. None where the stack is empty, where the lengths differ and at any other
event. -/
def readEvents : List Nat → List Event → Option (List Nat)
  | stack, [] => some stack
  | stack, .transform _ _ len _ :: es => readEvents (len :: stack) es
  | top :: stack, .pointwise len _ :: es => if len = top then readEvents stack es else none
  | _, _ => none

namespace Nested

variable {t : Tuning} {admits admits' : Nat → Nat → Prop} {es : List Event}

theorem mono (hle : ∀ m outLen, admits m outLen → admits' m outLen) (h : Nested t admits es) :
    Nested t admits' es := by
  cases h with
  | nil => exact .nil
  | transform hadmits hring hsix hlen hcount hpacked hpointwise =>
      exact .transform (hle _ _ hadmits) hring hsix hlen hcount hpacked hpointwise

theorem level_eq (h : Nested t admits es) {e : Event} (he : e ∈ es) : e.level = .trace := by
  induction h with
  | nil => cases he
  | transform _ _ _ _ _ _ _ ihpacked ihpointwise =>
      simp only [List.mem_append, List.mem_cons, List.mem_flatten] at he
      rcases he with (rfl | he) | rfl | ⟨es, hes, he⟩
      · rfl
      · exact ihpacked he
      · rfl
      · exact ihpointwise es hes he

theorem transform_eq (h : Nested t admits es) {m n len outLen : Nat}
    (he : .transform m n len outLen ∈ es) :
    n = m / 2 + 1 ∧ 6 ≤ n ∧ len = if m % 2 = 0 then 2 ^ (n - 1) else 2 ^ n := by
  induction h with
  | nil => cases he
  | transform _ hring hsix hlen _ _ _ ihpacked ihpointwise =>
      simp only [List.mem_append, List.mem_cons, List.mem_flatten, reduceCtorEq,
        false_or] at he
      rcases he with (he | he) | ⟨es, hes, he⟩
      · cases he
        exact ⟨hring, hsix, hlen⟩
      · exact ihpacked he
      · exact ihpointwise es hes he

theorem readEvents_flatten {pointwise : List (List Event)} {stack : List Nat}
    (h : ∀ es ∈ pointwise, ∀ rest, readEvents stack (es ++ rest) = readEvents stack rest)
    (rest : List Event) :
    readEvents stack (pointwise.flatten ++ rest) = readEvents stack rest := by
  induction pointwise with
  | nil => rfl
  | cons es pointwise ih =>
      rw [List.flatten_cons, List.append_assoc, h es List.mem_cons_self]
      exact ih fun es' hes => h es' (List.mem_cons_of_mem es hes)

/-- The events of a product leave the stack that they find, whatever follows them. -/
theorem readEvents_append (h : Nested t admits es) (stack : List Nat) (rest : List Event) :
    readEvents stack (es ++ rest) = readEvents stack rest := by
  -- the stack is generalized: the packed product is read with the length of its transform on top
  induction h generalizing stack rest with
  | nil => rfl
  | transform _ _ _ _ _ _ _ ihpacked ihpointwise =>
      rw [List.append_assoc, List.cons_append, readEvents, ihpacked, List.cons_append, readEvents,
        if_pos rfl]
      exact readEvents_flatten (fun es hes rest => ihpointwise es hes stack rest) rest

theorem readEvents_eq (h : Nested t admits es) : readEvents [] es = some [] := by
  have hread := h.readEvents_append [] []
  rwa [List.append_nil] at hread

end Nested

theorem Route.eventsOfAll_eq (t : Tuning) (routes : List Route) :
    eventsOfAll t routes = (routes.map (events t)).flatten := by
  induction routes with
  | nil => rfl
  | cons route routes ih => rw [eventsOfAll, ih, List.map_cons, List.flatten_cons]

theorem Plan.length_eq (p : Plan) :
    p.length = if p.m % 2 = 0 then 2 ^ (p.n - 1) else 2 ^ p.n := by
  rw [Plan.length, logLength]
  split <;> rfl

namespace Factors

variable {t : Tuning} {f g : Factors}

def events (t : Tuning) (f : Factors) : List Event := (f.product t).route.events t

theorem events_of_not_long (h : ¬ f.Long t) : f.events t = [] := by
  rw [events, product_of_not_long h]
  rfl

theorem events_of_long (h : f.Long t) :
    f.events t =
      .transform f.plan.m f.plan.n f.plan.length f.totalLength :: f.packed.events t ++
        .pointwise f.plan.length (t.spreads f.plan.length) ::
          (f.pointwise.map (events t)).flatten := by
  rw [events, product_of_long h, Product.assemble, Route.events, Route.eventsOfAll_eq,
    List.map_map, List.map_map]
  rfl

theorem events_eq (t : Tuning) (f : Factors) :
    f.events t =
      if f.Long t then
        .transform f.plan.m f.plan.n f.plan.length f.totalLength :: f.packed.events t ++
          .pointwise f.plan.length (t.spreads f.plan.length) ::
            (f.pointwise.map (events t)).flatten
      else [] := by
  split
  case isTrue h => exact events_of_long h
  case isFalse h => exact events_of_not_long h

theorem events_ne_nil_iff : f.events t ≠ [] ↔ f.Long t := by
  constructor
  · intro hne
    exact Decidable.not_not.mp fun h => hne (events_of_not_long h)
  · intro h
    rw [events_of_long h, List.cons_append]
    exact List.cons_ne_nil _ _

theorem trimmedLongest_le_longest (f : Factors) : f.trimmedLongest ≤ f.longest :=
  max_le_max (length_trim_le f.left) (length_trim_le f.right)

theorem plan_m_le (f : Factors) : f.plan.m ≤ (ofSize (32 * f.longest)).m :=
  ofSize_m_mono (Nat.mul_le_mul_left 32 f.trimmedLongest_le_longest)

theorem Long.packed_within (h : f.Long t) :
    packedWithin f.plan.m f.totalLength f.packed.plan.m f.packed.totalLength := by
  constructor
  · have hlongest := h.longest_packed_le
    have hle : f.packed.longest ≤ f.trimmedLongest := by omega
    exact Nat.le_trans f.packed.plan_m_le (ofSize_m_mono (Nat.mul_le_mul_left 32 hle))
  · exact Nat.lt_of_lt_of_le h.totalLength_packed_lt f.trimmedLength_le

theorem Long.pointwise_within (h : f.Long t) (hg : g ∈ f.pointwise) :
    pointwiseWithin f.plan.n f.totalLength g.plan.m g.totalLength := by
  refine ⟨?_, ?_, ?_⟩
  · obtain ⟨x, y, rfl, hx, hy⟩ := h.eq_pair_of_mem_pointwise hg
    have hlongest : (pair x y).longest ≤ f.plan.ringWords := by
      rw [longest, left, right, hx, hy, Nat.max_self]
    exact Nat.le_trans (plan_m_le _) (ofSize_m_le_of_le_ringWords hlongest)
  · obtain ⟨k, hk⟩ := Nat.exists_eq_add_of_le' h.six_le
    have hpow : 2 ^ (k + 6 + 1) = 2 ^ k * 2 ^ 7 := Nat.pow_add 2 k 7
    rw [h.totalLength_pointwise hg, ringWords_eq hk, hk, hpow]
    omega
  · exact Nat.lt_of_lt_of_le (h.totalLength_lt (List.mem_cons_of_mem _ hg)) f.trimmedLength_le

/-- The events of a product are nested, by induction over the products that it starts. -/
theorem nested_events (t : Tuning) (f : Factors) :
    Nested t (fun m outLen => m = f.plan.m ∧ outLen = f.totalLength) (f.events t) := by
  induction f using induct t with
  | direct f h =>
      rw [events_of_not_long h]
      exact .nil
  | long f h ihpacked ihpointwise =>
      rw [events_of_long h]
      refine .transform ⟨rfl, rfl⟩ rfl h.six_le f.plan.length_eq ?_ ?_ ?_
      · rw [List.length_map, h.length_pointwise]
      · refine ihpacked.mono ?_
        rintro m outLen ⟨rfl, rfl⟩
        exact h.packed_within
      · intro es hes
        obtain ⟨g, hg, rfl⟩ := List.mem_map.mp hes
        refine (ihpointwise g hg).mono ?_
        rintro m outLen ⟨rfl, rfl⟩
        exact h.pointwise_within hg

end Factors

/-- What the product of two factors reports, the longer one of the given number of bits: one event
at the debug level, then the nested events of the transforms. -/
structure Reported (t : Tuning) (f : Factors) (bits : Nat) (first : Event) (events : List Event) :
    Prop where
  events_eq : events = first :: f.events t
  level_first : first.level = .debug
  level_eq : ∀ e ∈ f.events t, e.level = .trace
  nested : Nested t (fun _ _ => True) (f.events t)
  read_eq : readEvents [] (f.events t) = some []
  ne_nil_iff : f.events t ≠ [] ↔ max t.threshold 512 ≤ bits
  transform_eq : ∀ m n len outLen, .transform m n len outLen ∈ f.events t →
    n = m / 2 + 1 ∧ 6 ≤ n ∧ len = if m % 2 = 0 then 2 ^ (n - 1) else 2 ^ n

theorem Factors.reported {t : Tuning} {f : Factors} {bits : Nat} {first : Event}
    (hfirst : first.level = .debug)
    (hne : ¬ (significantBits f.left = 0 ∨ significantBits f.right = 0))
    (hbits : max (significantBits f.left) (significantBits f.right) = bits) :
    Reported t f bits first (first :: f.events t) := by
  have hnested := f.nested_events t
  refine
    { events_eq := rfl
      level_first := hfirst
      level_eq := fun e he => hnested.level_eq he
      nested := hnested.mono fun _ _ _ => trivial
      read_eq := hnested.readEvents_eq
      ne_nil_iff := ?_
      transform_eq := fun m n len outLen he => hnested.transform_eq he }
  rw [events_ne_nil_iff, Long, hbits, Nat.not_lt]
  exact and_iff_right hne

namespace Integer

theorem significantBits_ofMagnitude (n : Nat) :
    significantBits (ofMagnitude n) = binaryLength n := by
  rw [significantBits_eq, toNat_ofMagnitude]

theorem significantBits_ofMagnitude_eq_zero_iff {a : Int} :
    significantBits (ofMagnitude a.natAbs) = 0 ↔ a = 0 := by
  rw [significantBits_ofMagnitude, binaryLength_eq_zero_iff, Int.natAbs_eq_zero]

theorem significantBits_ofMagnitude_ne_zero {a : Int} (ha : a ≠ 0) :
    significantBits (ofMagnitude a.natAbs) ≠ 0 :=
  mt significantBits_ofMagnitude_eq_zero_iff.mp ha

theorem long_ofMagnitude_iff {t : Tuning} {a b : Int} :
    (Factors.pair (ofMagnitude a.natAbs) (ofMagnitude b.natAbs)).Long t ↔
      ¬ (a = 0 ∨ b = 0) ∧
        t.effectiveThreshold ≤ max (binaryLength a.natAbs) (binaryLength b.natAbs) := by
  rw [Factors.Long, Factors.left, Factors.right, significantBits_ofMagnitude_eq_zero_iff,
    significantBits_ofMagnitude_eq_zero_iff, significantBits_ofMagnitude,
    significantBits_ofMagnitude, Nat.not_lt]

theorem multiply_events {t : Tuning} {a b : Int} (ha : a ≠ 0) (hb : b ≠ 0) :
    (multiply t a b).events =
      .multiply (binaryLength a.natAbs) (binaryLength b.natAbs) t.threshold ::
        (Factors.pair (ofMagnitude a.natAbs) (ofMagnitude b.natAbs)).events t := by
  rw [multiply, if_neg (not_or.mpr ⟨ha, hb⟩)]
  rfl

theorem square_events {t : Tuning} {a : Int} (ha : a ≠ 0) :
    (square t a).events =
      .square (binaryLength a.natAbs) t.threshold ::
        (Factors.twice (ofMagnitude a.natAbs)).events t := by
  rw [square, if_neg ha]
  rfl

/-- The events of the transforms, without the one that reports the operands. -/
def Traced.traceEvents (r : Traced) : List Event :=
  r.events.filter (·.level = .trace)

theorem traceEvents_cons {r : Traced} {t : Tuning} {f : Factors} {first : Event}
    (hfirst : first.level = .debug) (h : r.events = first :: f.events t) :
    r.traceEvents = f.events t := by
  have htrace : ∀ e ∈ f.events t, decide (e.level = .trace) = true := fun e he =>
    decide_eq_true ((f.nested_events t).level_eq he)
  rw [Traced.traceEvents, h, List.filter_cons_of_neg (by simp [hfirst]),
    List.filter_eq_self.mpr htrace]

theorem traceEvents_multiply (t : Tuning) (a b : Int) :
    (multiply t a b).traceEvents =
      (Factors.pair (ofMagnitude a.natAbs) (ofMagnitude b.natAbs)).events t := by
  by_cases hzero : a = 0 ∨ b = 0
  · rw [multiply, if_pos hzero, Factors.events_of_not_long]
    · rfl
    · exact fun h => (long_ofMagnitude_iff.mp h).1 hzero
  · obtain ⟨ha, hb⟩ := not_or.mp hzero
    exact traceEvents_cons rfl (multiply_events ha hb)

theorem traceEvents_square (t : Tuning) (a : Int) :
    (square t a).traceEvents = (Factors.twice (ofMagnitude a.natAbs)).events t := by
  by_cases hzero : a = 0
  · rw [square, if_pos hzero, Factors.events_of_not_long]
    · rfl
    · rintro ⟨hne, _⟩
      exact hne (.inl (significantBits_ofMagnitude_eq_zero_iff.mpr hzero))
  · exact traceEvents_cons rfl (square_events hzero)

/-- What is traced of a result: the events of the recursion from its factors. -/
structure Traces (t : Tuning) (f : Factors) (r : Traced) : Prop where
  traceEvents_eq : r.traceEvents = f.events t
  events_eq : r.traceEvents =
    if f.Long t then
      .transform f.plan.m f.plan.n f.plan.length f.totalLength :: f.packed.events t ++
        .pointwise f.plan.length (t.spreads f.plan.length) ::
          (f.pointwise.map (·.events t)).flatten
    else []

theorem traces_multiply (t : Tuning) (a b : Int) :
    Traces t (.pair (ofMagnitude a.natAbs) (ofMagnitude b.natAbs)) (multiply t a b) where
  traceEvents_eq := traceEvents_multiply t a b
  events_eq := (traceEvents_multiply t a b).trans (Factors.events_eq t _)

theorem traces_square (t : Tuning) (a : Int) :
    Traces t (.twice (ofMagnitude a.natAbs)) (square t a) where
  traceEvents_eq := traceEvents_square t a
  events_eq := (traceEvents_square t a).trans (Factors.events_eq t _)

theorem traceEvents_multiply_ne_nil_iff (t : Tuning) (a b : Int) :
    (multiply t a b).traceEvents ≠ [] ↔
      ¬ (a = 0 ∨ b = 0) ∧
        max t.threshold 512 ≤ max (binaryLength a.natAbs) (binaryLength b.natAbs) := by
  rw [traceEvents_multiply, Factors.events_ne_nil_iff, long_ofMagnitude_iff]
  rfl

theorem debugEvents_cons {t : Tuning} {f : Factors} {first : Event}
    (hfirst : first.level = .debug) :
    (first :: f.events t).filter (·.level = .debug) = [first] := by
  have hnone : (f.events t).filter (·.level = .debug) = [] := by
    rw [List.filter_eq_nil_iff]
    intro e he
    simp [(f.nested_events t).level_eq he]
  rw [List.filter_cons_of_pos (by simp [hfirst]), hnone]

theorem debugEvents_multiply (t : Tuning) (a b : Int) :
    (multiply t a b).events.filter (·.level = .debug) =
      if a = 0 ∨ b = 0 then []
      else [.multiply (binaryLength a.natAbs) (binaryLength b.natAbs) t.threshold] := by
  split
  case isTrue hzero => rw [multiply, if_pos hzero, List.filter_nil]
  case isFalse hzero =>
    obtain ⟨ha, hb⟩ := not_or.mp hzero
    rw [multiply_events ha hb, debugEvents_cons rfl]

theorem debugEvents_square (t : Tuning) (a : Int) :
    (square t a).events.filter (·.level = .debug) =
      if a = 0 then [] else [.square (binaryLength a.natAbs) t.threshold] := by
  split
  case isTrue hzero => rw [square, if_pos hzero, List.filter_nil]
  case isFalse hzero => rw [square_events hzero, debugEvents_cons rfl]

/-- A product through the transform reports that, its packed product, its pointwise products, and
each of them in turn. Products and squares of integers other than zero report themselves first; what
follows nests, in the order of a run whose work stays on one thread, and the sizes in it bound those
of the transforms inside. -/
theorem events_nested (t : Tuning) {a b : Int} (ha : a ≠ 0) (hb : b ≠ 0) :
    (∀ f : Factors, f.Long t →
      f.events t =
        .transform f.plan.m f.plan.n f.plan.length f.totalLength :: f.packed.events t ++
          .pointwise f.plan.length (t.spreads f.plan.length) ::
            (f.pointwise.map (·.events t)).flatten) ∧
    Reported t (.pair (ofMagnitude a.natAbs) (ofMagnitude b.natAbs))
      (max (binaryLength a.natAbs) (binaryLength b.natAbs))
      (.multiply (binaryLength a.natAbs) (binaryLength b.natAbs) t.threshold)
      (multiply t a b).events ∧
    Reported t (.twice (ofMagnitude a.natAbs)) (binaryLength a.natAbs)
      (.square (binaryLength a.natAbs) t.threshold) (square t a).events := by
  have hleft := significantBits_ofMagnitude_ne_zero ha
  have hright := significantBits_ofMagnitude_ne_zero hb
  rw [multiply_events ha hb, square_events ha]
  refine ⟨fun f h => Factors.events_of_long h, ?_, ?_⟩
  · refine Factors.reported rfl (not_or.mpr ⟨hleft, hright⟩) ?_
    rw [Factors.left, Factors.right, significantBits_ofMagnitude, significantBits_ofMagnitude]
  · refine Factors.reported rfl (not_or.mpr ⟨hleft, hleft⟩) ?_
    rw [Factors.left, Factors.right, Nat.max_self, significantBits_ofMagnitude]

theorem events_nested_sixteen :
    (∃ es, (multiply { threshold := 0 } (2 ^ 511) (-3)).events = .multiply 512 2 0 :: es ∧
      es ≠ [] ∧ readEvents [] es = some []) ∧
    (square { threshold := 513 } (2 ^ 511)).events = [.square 512 513] := by
  have hne : (2 ^ 511 : Int) ≠ 0 := by decide +kernel
  have hlen : binaryLength (2 ^ 511 : Int).natAbs = 512 := by decide +kernel
  have hfactor : binaryLength (-3 : Int).natAbs = 2 := by decide +kernel
  obtain ⟨_, hlong, _⟩ := events_nested { threshold := 0 } (b := -3) hne (by decide)
  obtain ⟨_, _, hshort⟩ := events_nested { threshold := 513 } (b := -3) hne (by decide)
  rw [hlen, hfactor] at hlong
  rw [hlen] at hshort
  refine ⟨⟨_, hlong.events_eq, ?_, hlong.read_eq⟩, hshort.events_eq.trans ?_⟩
  · exact hlong.ne_nil_iff.mpr (by decide)
  · rw [List.cons.injEq]
    refine ⟨rfl, Decidable.not_not.mp fun h => ?_⟩
    exact absurd (hshort.ne_nil_iff.mp h) (by decide)

end Integer

end FermatMul
