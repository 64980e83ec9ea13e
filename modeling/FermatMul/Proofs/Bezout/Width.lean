import Mathlib.Algebra.Order.Group.Unbundled.Int
import FermatMul.Proofs.Bezout.Recurrence

namespace FermatMul

namespace IntWidth

variable {w : IntWidth} {v : Int}

/-- The size of the least integer of the width. -/
def limit (w : IntWidth) : Nat := 2 ^ (w.bits - 1)

theorem two_le_limit (w : IntWidth) : 2 ≤ w.limit := by
  cases w <;> decide

theorem limit_le (w : IntWidth) : w.limit ≤ 2 ^ 63 := by
  cases w <;> decide

theorem holds_iff : w.Holds v ↔ -(w.limit : Int) ≤ v ∧ v < w.limit := by
  cases w <;> exact Iff.rfl

theorem neg_two_pow_eq (w : IntWidth) : -2 ^ (w.bits - 1) = -(w.limit : Int) := by
  cases w <;> rfl

theorem Holds.natAbs_le (h : w.Holds v) : v.natAbs ≤ w.limit := by
  rw [holds_iff] at h
  omega

theorem holds_of_natAbs_lt (h : v.natAbs < w.limit) : w.Holds v := by
  rw [holds_iff]
  omega

theorem holds_natCast_iff {n : Nat} : w.Holds n ↔ n < w.limit := by
  rw [holds_iff]
  omega

end IntWidth

namespace Bezout

variable {a b : Int} {u v : Bezout} {w : IntWidth}

/-- The numbers of one turn of the recurrence: both rows, the quotient, its products with the lower
row, and the upper row with its signs changed. -/
def numbers (u v : Bezout) : List Int :=
  [u.x, u.y, u.gcd, v.x, v.y, v.gcd,
    quotient u v, quotient u v * v.x, quotient u v * v.y, quotient u v * v.gcd,
    -u.x, -u.y, -u.gcd]

/-- A row whose numbers are at most as large as the operands or one. -/
structure Bounded (a b : Int) (u : Bezout) : Prop where
  x_le : u.x.natAbs ≤ max 1 (max a.natAbs b.natAbs)
  y_le : u.y.natAbs ≤ max 1 (max a.natAbs b.natAbs)
  gcd_le : u.gcd.natAbs ≤ max 1 (max a.natAbs b.natAbs)

theorem Reached.bounded (h : Reached a b u v) : Bounded a b u ∧ Bounded a b v := by
  induction h with
  | start => constructor <;> constructor <;> simp
  | @next u v h hne ih =>
      have hnext := (h.next hne).invariant
      have hx := hnext.x_balanced.natAbs_lower_le hne
      have hy := hnext.y_balanced.natAbs_lower_le hne
      have hgcd := natAbs_gcd_remainder_lt u hne
      have hv := ih.2.gcd_le
      exact ⟨ih.2, by omega, by omega, by omega⟩

/-- The products of the quotient with a row are at most as large as the rows around it. -/
theorem Reached.natAbs_products_le (h : Reached a b u v) :
    (quotient u v * v.x).natAbs ≤ max 1 (max a.natAbs b.natAbs) ∧
      (quotient u v * v.y).natAbs ≤ max 1 (max a.natAbs b.natAbs) ∧
      (quotient u v * v.gcd).natAbs ≤ max 1 (max a.natAbs b.natAbs) := by
  by_cases hne : v.gcd = 0
  · have hzero : quotient u v = 0 := by rw [quotient, hne, Int.tdiv_zero]
    simp [hzero]
  · have hx := h.invariant.x_balanced.alternates.natAbs_sub hne
    have hy := h.invariant.y_balanced.alternates.natAbs_sub hne
    have hgcd := natAbs_gcd_eq u v
    have hu := h.bounded.1.gcd_le
    obtain ⟨hxLe, hyLe, _⟩ := (h.next hne).bounded.2
    rw [remainder_x] at hxLe
    rw [remainder_y] at hyLe
    simp only [Int.natAbs_mul]
    omega

theorem Reached.natAbs_numbers_le (h : Reached a b u v) :
    ∀ z ∈ numbers u v, z.natAbs ≤ max 1 (max a.natAbs b.natAbs) := by
  obtain ⟨⟨hux, huy, hugcd⟩, ⟨hvx, hvy, hvgcd⟩⟩ := h.bounded
  obtain ⟨hqx, hqy, hqgcd⟩ := h.natAbs_products_le
  have hq : (quotient u v).natAbs ≤ max 1 (max a.natAbs b.natAbs) :=
    (Int.natAbs_tdiv_le_natAbs u.gcd v.gcd).trans hugcd
  simp only [numbers, List.forall_mem_cons, Int.natAbs_neg]
  exact ⟨hux, huy, hugcd, hvx, hvy, hvgcd, hq, hqx, hqy, hqgcd, hux, huy, hugcd,
    List.forall_mem_nil _⟩

/-- A representation of the greatest common divisor with small coefficients. -/
structure Represents (a b : Int) (row : Bezout) : Prop where
  gcd_eq : row.gcd = Int.gcd a b
  sum_eq : a * row.x + b * row.y = row.gcd
  small : (row.x.natAbs ≤ 1 ∧ row.y.natAbs ≤ 1) ∨
    (2 * (row.x.natAbs * Int.gcd a b) ≤ b.natAbs ∧ 2 * (row.y.natAbs * Int.gcd a b) ≤ a.natAbs)

theorem Reached.natAbs_gcd (h : Reached a b u v) (hlast : v.gcd = 0) :
    u.gcd.natAbs = Int.gcd a b := by
  rw [← h.invariant.gcd_eq, hlast, Int.gcd_zero_right]

/-- The coefficients beside the remainder zero are the operands without their common divisor. -/
theorem Reached.natAbs_mul_gcd (h : Reached a b u v) (hlast : v.gcd = 0) :
    v.x.natAbs * Int.gcd a b = b.natAbs ∧ v.y.natAbs * Int.gcd a b = a.natAbs := by
  have hx := h.invariant.x_balanced.sum_eq
  have hy := h.invariant.y_balanced.sum_eq
  rw [hlast, Int.natAbs_zero, Nat.mul_zero, Nat.add_zero, h.natAbs_gcd hlast] at hx hy
  exact ⟨hx, hy⟩

theorem Reached.first_or_small (h : Reached a b u v) (hlast : v.gcd = 0) :
    u.x.natAbs + u.y.natAbs = 1 ∨
      (2 * (u.x.natAbs * Int.gcd a b) ≤ b.natAbs ∧
        2 * (u.y.natAbs * Int.gcd a b) ≤ a.natAbs) := by
  refine (h.first_or_half hlast).imp_right ?_
  rintro ⟨hx, hy⟩
  obtain ⟨hxNext, hyNext⟩ := h.natAbs_mul_gcd hlast
  rw [← hxNext, ← hyNext, ← Nat.mul_assoc, ← Nat.mul_assoc]
  exact ⟨Nat.mul_le_mul_right _ hx, Nat.mul_le_mul_right _ hy⟩

theorem Reached.small (h : Reached a b u v) (hlast : v.gcd = 0) :
    (u.x.natAbs ≤ 1 ∧ u.y.natAbs ≤ 1) ∨
      (2 * (u.x.natAbs * Int.gcd a b) ≤ b.natAbs ∧
        2 * (u.y.natAbs * Int.gcd a b) ≤ a.natAbs) :=
  (h.first_or_small hlast).imp_left (by omega)

theorem Reached.represents (h : Reached a b u v) (hlast : v.gcd = 0) :
    Represents a b (if u.gcd < 0 then u.neg else u) := by
  have hgcd := h.natAbs_gcd hlast
  have hsum := h.invariant.upper
  have hsmall := h.small hlast
  split
  case isTrue hneg =>
    refine ⟨?_, ?_, ?_⟩
    · change -u.gcd = _
      omega
    · change a * -u.x + b * -u.y = -u.gcd
      rw [← hsum]
      ring
    · change ((-u.x).natAbs ≤ 1 ∧ (-u.y).natAbs ≤ 1) ∨ _
      simpa only [neg, Int.natAbs_neg] using hsmall
  case isFalse hnonneg => exact ⟨by omega, hsum, hsmall⟩

/-- The loop ends, and the row that it ends with gives the result. -/
theorem exists_last (a b : Int) :
    ∃ u v, Reached a b u v ∧ v.gcd = 0 ∧ ofPair a b = if u.gcd < 0 then u.neg else u := by
  obtain ⟨v, hv, hlast⟩ := (Reached.start (a := a) (b := b)).descend
  exact ⟨_, v, hv, hlast, rfl⟩

theorem represents_ofPair (a b : Int) : Represents a b (ofPair a b) := by
  obtain ⟨u, v, h, hlast, heq⟩ := exists_last a b
  rw [heq]
  exact h.represents hlast

/-- A coefficient of at most half the size of an operand of the width. -/
theorem holds_of_small {c : Int} {gcd size : Nat} (hgcd : gcd ≠ 0) (hsize : size ≤ w.limit)
    (h : c.natAbs ≤ 1 ∨ 2 * (c.natAbs * gcd) ≤ size) : w.Holds c := by
  have hlimit := w.two_le_limit
  apply IntWidth.holds_of_natAbs_lt
  rcases h with hone | hhalf
  · omega
  · have hle : c.natAbs ≤ c.natAbs * gcd := Nat.le_mul_of_pos_right _ (Nat.pos_of_ne_zero hgcd)
    omega

theorem Represents.holds {row : Bezout} (h : Represents a b row) (hne : ¬ (a = 0 ∧ b = 0))
    (ha : w.Holds a) (hb : w.Holds b) : w.Holds row.x ∧ w.Holds row.y := by
  have hgcd : Int.gcd a b ≠ 0 := fun hzero => hne (Int.gcd_eq_zero_iff.mp hzero)
  exact ⟨holds_of_small hgcd hb.natAbs_le (h.small.imp And.left And.left),
    holds_of_small hgcd ha.natAbs_le (h.small.imp And.right And.right)⟩

theorem Represents.gcd_pos {row : Bezout} (h : Represents a b row) (hne : ¬ (a = 0 ∧ b = 0)) :
    0 < row.gcd := by
  have hpos : 0 < Int.gcd a b := by
    rw [Nat.pos_iff_ne_zero, ne_eq, Int.gcd_eq_zero_iff]
    exact hne
  rw [h.gcd_eq]
  exact_mod_cast hpos

/-- The greatest common divisor passes the width only between zero and the least integer. -/
theorem limit_le_gcd_iff (ha : w.Holds a) (hb : w.Holds b) (hne : ¬ (a = 0 ∧ b = 0)) :
    w.limit ≤ Int.gcd a b ↔
      (a = 0 ∨ a = -(w.limit : Int)) ∧ (b = 0 ∨ b = -(w.limit : Int)) := by
  rw [IntWidth.holds_iff] at ha hb
  constructor
  · intro hle
    have ha' : a ≠ 0 → Int.gcd a b ≤ a.natAbs := Int.gcd_le_natAbs_left b
    have hb' : b ≠ 0 → Int.gcd a b ≤ b.natAbs := Int.gcd_le_natAbs_right a
    omega
  · rintro ⟨rfl | rfl, rfl | rfl⟩
    · exact absurd ⟨rfl, rfl⟩ hne
    · simp
    · simp
    · simp

theorem extendedGcd_zero (w : IntWidth) : extendedGcd w 0 0 = .error .noCommonDivisor := rfl

theorem extendedGcd_eq (ha : w.Holds a) (hb : w.Holds b) (hne : ¬ (a = 0 ∧ b = 0)) :
    extendedGcd w a b =
      if Int.gcd a b < w.limit then .ok (ofPair a b)
      else .error (.widthExceeded (Int.gcd a b) a b) := by
  have hrow := represents_ofPair a b
  obtain ⟨hx, hy⟩ := hrow.holds hne ha hb
  rw [extendedGcd, if_neg hne]
  simp only [narrow, if_pos hx, if_pos hy, hrow.gcd_eq, IntWidth.holds_natCast_iff]
  split
  · rw [← hrow.gcd_eq]
    rfl
  · rfl

theorem extendedGcd_of_extreme (ha : w.Holds a) (hb : w.Holds b) (hne : ¬ (a = 0 ∧ b = 0))
    (h : (a = 0 ∨ a = -2 ^ (w.bits - 1)) ∧ (b = 0 ∨ b = -2 ^ (w.bits - 1))) :
    extendedGcd w a b = .error (.widthExceeded (Int.gcd a b) a b) := by
  rw [w.neg_two_pow_eq] at h
  rw [extendedGcd_eq ha hb hne, if_neg (Nat.not_lt.mpr ((limit_le_gcd_iff ha hb hne).mpr h))]

theorem extendedGcd_of_not_extreme (ha : w.Holds a) (hb : w.Holds b)
    (h : ¬ ((a = 0 ∨ a = -2 ^ (w.bits - 1)) ∧ (b = 0 ∨ b = -2 ^ (w.bits - 1)))) :
    extendedGcd w a b = .ok (ofPair a b) := by
  have hne : ¬ (a = 0 ∧ b = 0) := fun hzero => h ⟨.inl hzero.1, .inl hzero.2⟩
  rw [w.neg_two_pow_eq, ← limit_le_gcd_iff ha hb hne, Nat.not_le] at h
  rw [extendedGcd_eq ha hb hne, if_pos h]

theorem exists_extendedGcd (ha : w.Holds a) (hb : w.Holds b) (hne : ¬ (a = 0 ∧ b = 0))
    (hlt : Int.gcd a b < w.limit) :
    ∃ row, extendedGcd w a b = .ok row ∧ row.gcd = Int.gcd a b ∧ 0 < row.gcd ∧
      w.Holds row.x ∧ w.Holds row.y ∧ a * row.x + b * row.y = row.gcd := by
  have hrow := represents_ofPair a b
  obtain ⟨hx, hy⟩ := hrow.holds hne ha hb
  refine ⟨ofPair a b, ?_, hrow.gcd_eq, hrow.gcd_pos hne, hx, hy, hrow.sum_eq⟩
  rw [extendedGcd_eq ha hb hne, if_pos hlt]

/-- On two integers of a width the algorithm is undefined for two zeros, refuses the other pairs
of zero and the least integer, and for all the rest gives the greatest common divisor with
coefficients of the width. Its loop ends and never leaves 128 bits. -/
theorem extendedGcd_total (ha : w.Holds a) (hb : w.Holds b) :
    ((∃ e, extendedGcd w a b = .error e ∧ e.kind = .arithmeticUndefined) ↔ a = 0 ∧ b = 0) ∧
    ((∃ e, extendedGcd w a b = .error e ∧ e.kind = .invalidArgument) ↔
      ¬ (a = 0 ∧ b = 0) ∧
        (a = 0 ∨ a = -2 ^ (w.bits - 1)) ∧ (b = 0 ∨ b = -2 ^ (w.bits - 1))) ∧
    (¬ ((a = 0 ∨ a = -2 ^ (w.bits - 1)) ∧ (b = 0 ∨ b = -2 ^ (w.bits - 1))) →
      ∃ row, extendedGcd w a b = .ok row ∧ row.gcd = Int.gcd a b ∧ 0 < row.gcd ∧
        w.Holds row.x ∧ w.Holds row.y ∧ a * row.x + b * row.y = row.gcd) ∧
    (∃ u v, Reached a b u v ∧ v.gcd = 0 ∧ ofPair a b = if u.gcd < 0 then u.neg else u) ∧
    ∀ u v, Reached a b u v → ∀ z ∈ numbers u v, -2 ^ 127 ≤ z ∧ z < 2 ^ 127 := by
  rw [w.neg_two_pow_eq]
  have hloop : ∀ u v, Reached a b u v → ∀ z ∈ numbers u v, -2 ^ 127 ≤ z ∧ z < 2 ^ 127 := by
    intro u v h z hz
    have hle := h.natAbs_numbers_le z hz
    have hwidth := w.limit_le
    have haLe := ha.natAbs_le
    have hbLe := hb.natAbs_le
    omega
  by_cases hzero : a = 0 ∧ b = 0
  case pos =>
    obtain ⟨rfl, rfl⟩ := hzero
    simp only [extendedGcd_zero, Except.error.injEq, exists_eq_left']
    exact ⟨by simp [Refusal.kind], by simp [Refusal.kind], by simp, exists_last 0 0, hloop⟩
  case neg =>
    have hrange := limit_le_gcd_iff ha hb hzero
    rcases Nat.lt_or_ge (Int.gcd a b) w.limit with hlt | hge
    · obtain ⟨row, hok, hrow⟩ := exists_extendedGcd ha hb hzero hlt
      have hout := mt hrange.mpr (Nat.not_le_of_lt hlt)
      refine ⟨?_, ?_, fun _ => ⟨row, hok, hrow⟩, exists_last a b, hloop⟩
      · simp [hok, hzero]
      · simp [hok, hout]
    · have herror := extendedGcd_eq ha hb hzero
      rw [if_neg (Nat.not_lt_of_le hge)] at herror
      have hin := hrange.mp hge
      refine ⟨?_, ?_, fun hout => absurd hin hout, exists_last a b, hloop⟩
      · simp [herror, hzero, Refusal.kind]
      · simp only [herror, Except.error.injEq, exists_eq_left']
        exact iff_of_true rfl ⟨hzero, hin⟩

theorem extendedGcd_total_least :
    IntWidth.w32.Holds (-2147483648) ∧ IntWidth.w32.Holds (-6) ∧
      ∃ row, extendedGcd .w32 (-2147483648) (-6) = .ok row ∧ row.gcd = 2 ∧
        -2147483648 * row.x + -6 * row.y = 2 := by
  have ha : IntWidth.w32.Holds (-2147483648) := by decide
  have hb : IntWidth.w32.Holds (-6) := by decide
  refine ⟨ha, hb, ?_⟩
  obtain ⟨row, hok, hgcd, _, _, _, hsum⟩ := (extendedGcd_total ha hb).2.2.1 (by decide)
  have htwo : row.gcd = 2 := hgcd.trans (by decide)
  exact ⟨row, hok, htwo, hsum.trans htwo⟩

end Bezout

end FermatMul
