import FermatMul.Proofs.Bezout.Inverse
import FermatMul.Proofs.CommandLine.Products

/-!
Greatest common divisors and inverses on the command line: which operands they answer, with which
numbers, and how they end for all others. A greatest common divisor looks at both texts before it
fits either of them to the width; an inverse is done with its first operand before it looks at the
second one.
-/

namespace FermatMul.CommandLine

open FermatMul.Text

/-- The line for a row; where the run is to be quiet, its three numbers alone. -/
def rowText (s : Settings) (row : Bezout) : String :=
  if s.quiet then s!"{row.x} {row.y} {row.gcd}\n"
  else s!"x = {row.x}, y = {row.y}, gcd = {row.gcd}\n"

/-- The line for an operand without an inverse; a word where the run is to be quiet. -/
def missingText (s : Settings) (x y : Int) : String :=
  if s.quiet then "none\n"
  else "no inverse: gcd(" ++ toString x ++ ", " ++ toString y ++ ") != 1\n"

/-- A run that succeeds and prints a text and nothing else, whatever time it took. -/
structure Writes (text : String) (e : Ending) : Prop where
  exitStatus_eq : e.exitStatus = 0
  diagnostics_eq : ∀ texts, e.diagnostics texts = ""
  output_eq : ∀ texts elapsed, e.output texts elapsed = text

theorem Writes.unique {text text' : String} {e : Ending} (h : Writes text e)
    (h' : Writes text' e) : text = text' := by
  let texts : LibraryTexts := ⟨"", fun _ => "", fun _ => "", fun _ _ => ""⟩
  rw [← h.output_eq texts "", h'.output_eq texts ""]

namespace Invocation

theorem log_egcd (s : Settings) (a b : String) (w : IntWidth) :
    log { settings := s, request := .egcd a b w } = [] := by
  simp [log, events]

theorem log_inverse (s : Settings) (a m : String) :
    log { settings := s, request := .inverse a m } = [] := by
  simp [log, events]

end Invocation

namespace Ending

variable {x y : Int} {a b m : String} {w : IntWidth} (s : Settings)

section CommonDivisors

theorem ofInvocation_egcd (s : Settings) (a b : String) (w : IntWidth) :
    Answer.ofInvocation { settings := s, request := .egcd a b w } = do
      let x ← readOperand a
      let y ← readOperand b
      let x ← fitOperand w x
      let y ← fitOperand w y
      let row ← (Bezout.extendedGcd w x y).mapError Failure.ofRefusal
      return .bezout row := rfl

theorem ofInvocation_egcd_failed_left (ha : Numeral.parse? a = none) (b : String) (w : IntWidth) :
    ofInvocation { settings := s, request := .egcd a b w } = .failed (.parse a) := by
  apply ofInvocation_error ?_ (Invocation.log_egcd s a b w)
  rw [ofInvocation_egcd, readOperand_of_none ha]
  rfl

theorem ofInvocation_egcd_failed_right (ha : Numeral.parse? a = some x)
    (hb : Numeral.parse? b = none) (w : IntWidth) :
    ofInvocation { settings := s, request := .egcd a b w } = .failed (.parse b) := by
  apply ofInvocation_error ?_ (Invocation.log_egcd s a b w)
  rw [ofInvocation_egcd, readOperand_of_some ha, readOperand_of_none hb]
  rfl

theorem ofInvocation_egcd_parsed (ha : Numeral.parse? a = some x) (hb : Numeral.parse? b = some y)
    (w : IntWidth) :
    Answer.ofInvocation { settings := s, request := .egcd a b w } =
      fitOperand w x >>= fun x => fitOperand w y >>= fun y =>
        ((Bezout.extendedGcd w x y).mapError Failure.ofRefusal).map .bezout := by
  rw [ofInvocation_egcd, readOperand_of_some ha, readOperand_of_some hb]
  rfl

theorem ofInvocation_egcd_exceeded_left (ha : Numeral.parse? a = some x)
    (hb : Numeral.parse? b = some y) (hx : ¬ w.Holds x) :
    ofInvocation { settings := s, request := .egcd a b w } =
      .failed (.outOfRange (toString x) w.bits) := by
  apply ofInvocation_error ?_ (Invocation.log_egcd s a b w)
  rw [ofInvocation_egcd_parsed s ha hb, fitOperand_of_not_holds hx]
  rfl

theorem ofInvocation_egcd_exceeded_right (ha : Numeral.parse? a = some x)
    (hb : Numeral.parse? b = some y) (hx : w.Holds x) (hy : ¬ w.Holds y) :
    ofInvocation { settings := s, request := .egcd a b w } =
      .failed (.outOfRange (toString y) w.bits) := by
  apply ofInvocation_error ?_ (Invocation.log_egcd s a b w)
  rw [ofInvocation_egcd_parsed s ha hb, fitOperand_of_holds hx]
  change (fitOperand w y >>= _) = _
  rw [fitOperand_of_not_holds hy]
  rfl

/-- Two fitting operands leave the rest to the algorithm. -/
theorem ofInvocation_egcd_fitted (ha : Numeral.parse? a = some x) (hb : Numeral.parse? b = some y)
    (hx : w.Holds x) (hy : w.Holds y) :
    Answer.ofInvocation { settings := s, request := .egcd a b w } =
      ((Bezout.extendedGcd w x y).mapError Failure.ofRefusal).map .bezout := by
  rw [ofInvocation_egcd_parsed s ha hb, fitOperand_of_holds hx]
  change (fitOperand w y >>= _) = _
  rw [fitOperand_of_holds hy]
  rfl

theorem writes_row (s : Settings) (row : Bezout) :
    Writes (rowText s row) (.answered s (.bezout row)) where
  exitStatus_eq := rfl
  diagnostics_eq _ := rfl
  output_eq texts elapsed := by
    simp only [output, Answer.render, Digits.decimalText_eq_toString]
    rfl

theorem ofInvocation_egcd_undefined (ha : Numeral.parse? a = some 0)
    (hb : Numeral.parse? b = some 0) (w : IntWidth) :
    ofInvocation { settings := s, request := .egcd a b w } =
      .failed (.ofRefusal .noCommonDivisor) := by
  have hfits : w.Holds 0 := by cases w <;> decide
  apply ofInvocation_error ?_ (Invocation.log_egcd s a b w)
  rw [ofInvocation_egcd_fitted s ha hb hfits hfits, Bezout.extendedGcd_zero]
  rfl

theorem ofInvocation_egcd_extreme (ha : Numeral.parse? a = some x) (hb : Numeral.parse? b = some y)
    (hx : w.Holds x) (hy : w.Holds y) (hne : ¬ (x = 0 ∧ y = 0))
    (h : (x = 0 ∨ x = -2 ^ (w.bits - 1)) ∧ (y = 0 ∨ y = -2 ^ (w.bits - 1))) :
    ofInvocation { settings := s, request := .egcd a b w } =
      .failed (.ofRefusal (.widthExceeded (Int.gcd x y) x y)) := by
  apply ofInvocation_error ?_ (Invocation.log_egcd s a b w)
  rw [ofInvocation_egcd_fitted s ha hb hx hy, Bezout.extendedGcd_of_extreme hx hy hne h]
  rfl

theorem egcd_writes (ha : Numeral.parse? a = some x) (hb : Numeral.parse? b = some y)
    (hx : w.Holds x) (hy : w.Holds y)
    (h : ¬ ((x = 0 ∨ x = -2 ^ (w.bits - 1)) ∧ (y = 0 ∨ y = -2 ^ (w.bits - 1)))) :
    Writes (rowText s (Bezout.ofPair x y))
      (ofInvocation { settings := s, request := .egcd a b w }) := by
  have hanswer := ofInvocation_egcd_fitted s ha hb hx hy
  rw [Bezout.extendedGcd_of_not_extreme hx hy h] at hanswer
  rw [ofInvocation_ok hanswer (Invocation.log_egcd s a b w)]
  exact writes_row s _

theorem egcd_parsed_or_failed (s : Settings) (a b : String) (w : IntWidth) :
    (∃ x y, Numeral.parse? a = some x ∧ Numeral.parse? b = some y) ∨
      (ofInvocation { settings := s, request := .egcd a b w }).exitStatus = 4 := by
  cases ha : Numeral.parse? a with
  | none =>
      rw [ofInvocation_egcd_failed_left s ha]
      exact .inr rfl
  | some x =>
      cases hb : Numeral.parse? b with
      | none =>
          rw [ofInvocation_egcd_failed_right s ha hb]
          exact .inr rfl
      | some y => exact .inl ⟨x, y, rfl, rfl⟩

theorem exitStatus_egcd (ha : Numeral.parse? a = some x) (hb : Numeral.parse? b = some y) :
    (ofInvocation { settings := s, request := .egcd a b w }).exitStatus =
      if x = 0 ∧ y = 0 then 1
      else if (w.Holds x ∧ w.Holds y) ∧
        ¬ ((x = 0 ∨ x = -2 ^ (w.bits - 1)) ∧ (y = 0 ∨ y = -2 ^ (w.bits - 1))) then 0
      else 4 := by
  by_cases hzero : x = 0 ∧ y = 0
  · obtain ⟨rfl, rfl⟩ := hzero
    rw [ofInvocation_egcd_undefined s ha hb]
    rfl
  · rw [if_neg hzero]
    -- the cases in the order of the checks: the widths of both operands, then the extremes
    by_cases hx : w.Holds x
    · by_cases hy : w.Holds y
      · split
        case isTrue h => exact (egcd_writes s ha hb hx hy h.2).exitStatus_eq
        case isFalse h =>
          have hextreme := not_not.mp fun hout => h ⟨⟨hx, hy⟩, hout⟩
          rw [ofInvocation_egcd_extreme s ha hb hx hy hzero hextreme]
          rfl
      · rw [if_neg fun h => hy h.1.2, ofInvocation_egcd_exceeded_right s ha hb hx hy]
        rfl
    · rw [if_neg fun h => hx h.1.1, ofInvocation_egcd_exceeded_left s ha hb hx]
      rfl

theorem exitStatus_egcd_eq_zero_iff :
    (ofInvocation { settings := s, request := .egcd a b w }).exitStatus = 0 ↔
      ∃ x y, Numeral.parse? a = some x ∧ Numeral.parse? b = some y ∧ (w.Holds x ∧ w.Holds y) ∧
        ¬ (x = 0 ∧ y = 0) ∧
        ¬ ((x = 0 ∨ x = -2 ^ (w.bits - 1)) ∧ (y = 0 ∨ y = -2 ^ (w.bits - 1))) := by
  constructor
  · intro h
    rcases egcd_parsed_or_failed s a b w with ⟨x, y, ha, hb⟩ | hfailed
    · rw [exitStatus_egcd s ha hb] at h
      split_ifs at h with hzero hfits
      exact ⟨x, y, ha, hb, hfits.1, hzero, hfits.2⟩
    · omega
  · rintro ⟨x, y, ha, hb, hfits, hzero, hout⟩
    rw [exitStatus_egcd s ha hb, if_neg hzero, if_pos ⟨hfits, hout⟩]

theorem exitStatus_egcd_eq_one_iff :
    (ofInvocation { settings := s, request := .egcd a b w }).exitStatus = 1 ↔
      Numeral.parse? a = some 0 ∧ Numeral.parse? b = some 0 := by
  constructor
  · intro h
    rcases egcd_parsed_or_failed s a b w with ⟨x, y, ha, hb⟩ | hfailed
    · rw [exitStatus_egcd s ha hb] at h
      split_ifs at h with hzero
      · exact ⟨hzero.1 ▸ ha, hzero.2 ▸ hb⟩
      · omega
    · omega
  · rintro ⟨ha, hb⟩
    rw [exitStatus_egcd s ha hb, if_pos ⟨rfl, rfl⟩]

theorem exitStatus_egcd_mem :
    (ofInvocation { settings := s, request := .egcd a b w }).exitStatus ∈ [0, 1, 4] := by
  rcases egcd_parsed_or_failed s a b w with ⟨x, y, ha, hb⟩ | hfailed
  · rw [exitStatus_egcd s ha hb]
    split_ifs <;> decide
  · rw [hfailed]
    decide

end CommonDivisors

section Inverses

theorem ofInvocation_inverse (s : Settings) (a m : String) :
    Answer.ofInvocation { settings := s, request := .inverse a m } = do
      let x ← readOperand a >>= fitOperand .w64
      let y ← readOperand m >>= fitOperand .w64
      let result ← (Bezout.inverse .w64 x y).mapError Failure.ofRefusal
      return .inverse x y result := by
  simp only [bind_assoc]
  rfl

theorem ofInvocation_inverse_failed_left {e : Failure}
    (h : (readOperand a >>= fitOperand .w64) = .error e) (m : String) :
    ofInvocation { settings := s, request := .inverse a m } = .failed e := by
  apply ofInvocation_error ?_ (Invocation.log_inverse s a m)
  rw [ofInvocation_inverse, h]
  rfl

theorem ofInvocation_inverse_failed_right {e : Failure}
    (ha : (readOperand a >>= fitOperand .w64) = .ok x)
    (h : (readOperand m >>= fitOperand .w64) = .error e) :
    ofInvocation { settings := s, request := .inverse a m } = .failed e := by
  apply ofInvocation_error ?_ (Invocation.log_inverse s a m)
  rw [ofInvocation_inverse, ha, h]
  rfl

theorem ofInvocation_inverse_fitted (ha : (readOperand a >>= fitOperand .w64) = .ok x)
    (hm : (readOperand m >>= fitOperand .w64) = .ok y) :
    Answer.ofInvocation { settings := s, request := .inverse a m } =
      ((Bezout.inverse .w64 x y).mapError Failure.ofRefusal).map (.inverse x y) := by
  rw [ofInvocation_inverse, ha, hm]
  rfl

theorem writes_inverse (s : Settings) (x y v : Int) :
    Writes (toString v ++ "\n") (.answered s (.inverse x y (some v))) where
  exitStatus_eq := rfl
  diagnostics_eq _ := rfl
  output_eq texts elapsed := by
    change Answer.render s elapsed (.inverse x y (some v)) = _
    rw [Answer.render, Digits.decimalText_eq_toString]

theorem writes_missing (s : Settings) (x y : Int) :
    Writes (missingText s x y) (.answered s (.inverse x y none)) where
  exitStatus_eq := rfl
  diagnostics_eq _ := rfl
  output_eq texts elapsed := by
    change Answer.render s elapsed (.inverse x y none) = _
    rw [Answer.render, Digits.decimalText_eq_toString, Digits.decimalText_eq_toString]
    rfl

/-- No text of a number is the line for a missing inverse: it has no letter. -/
theorem toString_ne_missingText {v : Int} (hv : 0 ≤ v) (s : Settings) (x y : Int) :
    toString v ++ "\n" ≠ missingText s x y := by
  intro h
  have hmissing : 'n' ∈ (missingText s x y).toList := by
    rw [missingText]
    split
    · decide
    · simp [String.toList_append]
  rw [← h, String.toList_append, List.mem_append] at hmissing
  rcases hmissing with hdigit | hline
  · change 'n' ∈ Numeral.decimalForm v at hdigit
    rw [Numeral.decimalForm_eq, if_neg (Int.not_lt.mpr hv)] at hdigit
    obtain ⟨d, hd⟩ := (Digits.denotes_ofNat .decimal v.natAbs).isDigit 'n' hdigit
    exact Digits.not_isDigit rfl d hd
  · exact absurd hline (by decide)

theorem ofInvocation_inverse_answered (ha : (readOperand a >>= fitOperand .w64) = .ok x)
    (hm : (readOperand m >>= fitOperand .w64) = .ok y) {result : Option Int}
    (h : Bezout.inverse .w64 x y = .ok result) :
    ofInvocation { settings := s, request := .inverse a m } =
      .answered s (.inverse x y result) := by
  apply ofInvocation_ok ?_ (Invocation.log_inverse s a m)
  rw [ofInvocation_inverse_fitted s ha hm, h]
  rfl

theorem ofInvocation_inverse_refused (ha : (readOperand a >>= fitOperand .w64) = .ok x)
    (hm : (readOperand m >>= fitOperand .w64) = .ok y) (h : y ≤ 0) :
    ofInvocation { settings := s, request := .inverse a m } =
      .failed (.ofRefusal (.modulusNotPositive y)) := by
  apply ofInvocation_error ?_ (Invocation.log_inverse s a m)
  rw [ofInvocation_inverse_fitted s ha hm, Bezout.inverse_of_nonpos h]
  rfl

theorem inverse_fitted_or_failed (s : Settings) (a m : String) :
    (∃ x y, (Numeral.parse? a = some x ∧ IntWidth.w64.Holds x) ∧
        Numeral.parse? m = some y ∧ IntWidth.w64.Holds y) ∨
      (ofInvocation { settings := s, request := .inverse a m }).exitStatus = 4 := by
  rcases exists_fitted a .w64 with ⟨x, ha, hx⟩ | ⟨e, he, hstatus⟩
  · rcases exists_fitted m .w64 with ⟨y, hm, hy⟩ | ⟨e, he, hstatus⟩
    · exact .inl ⟨x, y, ⟨ha, hx⟩, hm, hy⟩
    · rw [ofInvocation_inverse_failed_right s (fitted_of_holds ha hx) he]
      exact .inr hstatus
  · rw [ofInvocation_inverse_failed_left s he]
    exact .inr hstatus

theorem exitStatus_inverse (ha : Numeral.parse? a = some x) (hm : Numeral.parse? m = some y)
    (hx : IntWidth.w64.Holds x) (hy : IntWidth.w64.Holds y) :
    (ofInvocation { settings := s, request := .inverse a m }).exitStatus =
      if 0 < y then 0 else 4 := by
  have ha := fitted_of_holds ha hx
  have hm := fitted_of_holds hm hy
  split
  case isTrue hpos =>
    rw [ofInvocation_inverse_answered s ha hm (Bezout.inverse_of_pos hy hpos x)]
    rfl
  case isFalse hneg =>
    rw [ofInvocation_inverse_refused s ha hm (Int.not_lt.mp hneg)]
    rfl

theorem exitStatus_inverse_eq_zero_iff :
    (ofInvocation { settings := s, request := .inverse a m }).exitStatus = 0 ↔
      ∃ x y, Numeral.parse? a = some x ∧ Numeral.parse? m = some y ∧
        (IntWidth.w64.Holds x ∧ IntWidth.w64.Holds y) ∧ 0 < y := by
  constructor
  · intro h
    rcases inverse_fitted_or_failed s a m with ⟨x, y, ⟨ha, hx⟩, hm, hy⟩ | hfailed
    · rw [exitStatus_inverse s ha hm hx hy] at h
      split_ifs at h with hpos
      exact ⟨x, y, ha, hm, ⟨hx, hy⟩, hpos⟩
    · omega
  · rintro ⟨x, y, ha, hm, ⟨hx, hy⟩, hpos⟩
    rw [exitStatus_inverse s ha hm hx hy, if_pos hpos]

/-- A run that succeeds had both integers in the width, and a positive modulus. -/
theorem inverse_answered_of_parsed (ha : Numeral.parse? a = some x) (hm : Numeral.parse? m = some y)
    (h : (ofInvocation { settings := s, request := .inverse a m }).exitStatus = 0) :
    (IntWidth.w64.Holds x ∧ IntWidth.w64.Holds y) ∧ 0 < y := by
  obtain ⟨x', y', ha', hm', hfits, hpos⟩ := (exitStatus_inverse_eq_zero_iff s).mp h
  cases ha.symm.trans ha'
  cases hm.symm.trans hm'
  exact ⟨hfits, hpos⟩

theorem exitStatus_inverse_mem :
    (ofInvocation { settings := s, request := .inverse a m }).exitStatus ∈ [0, 4] := by
  rcases inverse_fitted_or_failed s a m with ⟨x, y, ⟨ha, hx⟩, hm, hy⟩ | hfailed
  · rw [exitStatus_inverse s ha hm hx hy]
    split_ifs <;> decide
  · rw [hfailed]
    decide

theorem writes_inverse_of_gcd_eq_one (ha : Numeral.parse? a = some x)
    (hm : Numeral.parse? m = some y) (hx : IntWidth.w64.Holds x) (hy : IntWidth.w64.Holds y)
    (hpos : 0 < y) (hgcd : Int.gcd x y = 1) :
    ∃ v, (∀ u, (0 ≤ u ∧ u < y) ∧ x * u ≡ 1 [ZMOD y] ↔ u = v) ∧
      Writes (toString v ++ "\n") (ofInvocation { settings := s, request := .inverse a m }) := by
  obtain ⟨v, hv⟩ := (Bezout.inverse_isSome_iff hy hpos).mpr hgcd
  refine ⟨v, fun u => ?_, ?_⟩
  · rw [← Bezout.inverse_eq_some_iff hy hpos, hv, Except.ok.injEq, Option.some_inj]
    exact eq_comm
  · rw [ofInvocation_inverse_answered s (fitted_of_holds ha hx) (fitted_of_holds hm hy) hv]
    exact writes_inverse s x y v

theorem writes_missing_iff (ha : Numeral.parse? a = some x) (hm : Numeral.parse? m = some y)
    (hx : IntWidth.w64.Holds x) (hy : IntWidth.w64.Holds y) (hpos : 0 < y) :
    Writes (missingText s x y) (ofInvocation { settings := s, request := .inverse a m }) ↔
      Int.gcd x y ≠ 1 := by
  constructor
  · intro hmissing hgcd
    obtain ⟨v, hv, hwrites⟩ := writes_inverse_of_gcd_eq_one s ha hm hx hy hpos hgcd
    exact toString_ne_missingText ((hv v).mpr rfl).1.1 s x y (hwrites.unique hmissing)
  · intro hgcd
    rw [ofInvocation_inverse_answered s (fitted_of_holds ha hx) (fitted_of_holds hm hy)
      ((Bezout.inverse_eq_none_iff hy hpos).mpr hgcd)]
    exact writes_missing s x y

end Inverses

end Ending

/-- How a greatest common divisor of two texts ends, where a row is the one for their integers. -/
structure DivisorOutcome (s : Settings) (a b : String) (w : IntWidth) (row : Bezout)
    (e : Ending) : Prop where
  answered_iff : e.exitStatus = 0 ↔
    ∃ x y, Numeral.parse? a = some x ∧ Numeral.parse? b = some y ∧ (w.Holds x ∧ w.Holds y) ∧
      ¬ (x = 0 ∧ y = 0) ∧
      ¬ ((x = 0 ∨ x = -2 ^ (w.bits - 1)) ∧ (y = 0 ∨ y = -2 ^ (w.bits - 1)))
  undefined_iff : e.exitStatus = 1 ↔ Numeral.parse? a = some 0 ∧ Numeral.parse? b = some 0
  exitStatus_mem : e.exitStatus ∈ [0, 1, 4]
  writes : e.exitStatus = 0 → Writes (rowText s row) e
  failed_left : Numeral.parse? a = none → e = .failed (.parse a)
  failed_right : ∀ x, Numeral.parse? a = some x → Numeral.parse? b = none → e = .failed (.parse b)
  exceeded_left : ∀ x y, Numeral.parse? a = some x → Numeral.parse? b = some y → ¬ w.Holds x →
    e = .failed (.outOfRange (toString x) w.bits)
  exceeded_right : ∀ x y, Numeral.parse? a = some x → Numeral.parse? b = some y → w.Holds x →
    ¬ w.Holds y → e = .failed (.outOfRange (toString y) w.bits)
  extreme : ∀ x y, Numeral.parse? a = some x → Numeral.parse? b = some y → w.Holds x → w.Holds y →
    ¬ (x = 0 ∧ y = 0) → (x = 0 ∨ x = -2 ^ (w.bits - 1)) ∧ (y = 0 ∨ y = -2 ^ (w.bits - 1)) →
    e = .failed (.ofRefusal (.widthExceeded (Int.gcd x y) x y))

/-- How an inverse of two texts ends. What is wrong with the first one does not depend on the
second. -/
structure InverseOutcome (s : Settings) (a m : String) (e : Ending) : Prop where
  answered_iff : e.exitStatus = 0 ↔
    ∃ x y, Numeral.parse? a = some x ∧ Numeral.parse? m = some y ∧
      (IntWidth.w64.Holds x ∧ IntWidth.w64.Holds y) ∧ 0 < y
  exitStatus_mem : e.exitStatus ∈ [0, 4]
  writes : e.exitStatus = 0 → ∀ x y, Numeral.parse? a = some x → Numeral.parse? m = some y →
    Int.gcd x y = 1 →
      ∃ v, (∀ u, (0 ≤ u ∧ u < y) ∧ x * u ≡ 1 [ZMOD y] ↔ u = v) ∧ Writes (toString v ++ "\n") e
  missing_iff : e.exitStatus = 0 → ∀ x y, Numeral.parse? a = some x → Numeral.parse? m = some y →
    (Writes (missingText s x y) e ↔ Int.gcd x y ≠ 1)
  failed_left : Numeral.parse? a = none → e = .failed (.parse a)
  exceeded_left : ∀ x, Numeral.parse? a = some x → ¬ IntWidth.w64.Holds x →
    e = .failed (.outOfRange (toString x) 64)
  failed_right : ∀ x, Numeral.parse? a = some x → IntWidth.w64.Holds x →
    Numeral.parse? m = none → e = .failed (.parse m)
  exceeded_right : ∀ x y, Numeral.parse? a = some x → IntWidth.w64.Holds x →
    Numeral.parse? m = some y → ¬ IntWidth.w64.Holds y →
    e = .failed (.outOfRange (toString y) 64)
  refused : ∀ x y, Numeral.parse? a = some x → IntWidth.w64.Holds x →
    Numeral.parse? m = some y → IntWidth.w64.Holds y → y ≤ 0 →
    e = .failed (.ofRefusal (.modulusNotPositive y))

namespace Ending

/-- One row serves both widths. -/
theorem exists_row (a b : String) :
    ∃ row, ∀ x y, Numeral.parse? a = some x → Numeral.parse? b = some y →
      row = Bezout.ofPair x y := by
  by_cases h : ∃ x y, Numeral.parse? a = some x ∧ Numeral.parse? b = some y
  · obtain ⟨x, y, ha, hb⟩ := h
    refine ⟨Bezout.ofPair x y, fun x' y' ha' hb' => ?_⟩
    rw [Option.some_inj.mp (ha.symm.trans ha'), Option.some_inj.mp (hb.symm.trans hb')]
  · exact ⟨Bezout.ofPair 0 0, fun x y ha hb => absurd ⟨x, y, ha, hb⟩ h⟩

theorem divisorOutcome (s : Settings) {a b : String} {row : Bezout}
    (hrow : ∀ x y, Numeral.parse? a = some x → Numeral.parse? b = some y →
      row = Bezout.ofPair x y) (w : IntWidth) :
    DivisorOutcome s a b w row (ofInvocation { settings := s, request := .egcd a b w }) where
  answered_iff := exitStatus_egcd_eq_zero_iff s
  undefined_iff := exitStatus_egcd_eq_one_iff s
  exitStatus_mem := exitStatus_egcd_mem s
  writes h := by
    obtain ⟨x, y, ha, hb, ⟨hx, hy⟩, _, hout⟩ := (exitStatus_egcd_eq_zero_iff s).mp h
    rw [hrow x y ha hb]
    exact egcd_writes s ha hb hx hy hout
  failed_left ha := ofInvocation_egcd_failed_left s ha b w
  failed_right _ ha hb := ofInvocation_egcd_failed_right s ha hb w
  exceeded_left _ _ ha hb hx := ofInvocation_egcd_exceeded_left s ha hb hx
  exceeded_right _ _ ha hb hx hy := ofInvocation_egcd_exceeded_right s ha hb hx hy
  extreme _ _ ha hb hx hy hne h := ofInvocation_egcd_extreme s ha hb hx hy hne h

theorem inverseOutcome (s : Settings) (a m : String) :
    InverseOutcome s a m (ofInvocation { settings := s, request := .inverse a m }) where
  answered_iff := exitStatus_inverse_eq_zero_iff s
  exitStatus_mem := exitStatus_inverse_mem s
  writes h x y ha hm hgcd := by
    obtain ⟨⟨hx, hy⟩, hpos⟩ := inverse_answered_of_parsed s ha hm h
    exact writes_inverse_of_gcd_eq_one s ha hm hx hy hpos hgcd
  missing_iff h x y ha hm := by
    obtain ⟨⟨hx, hy⟩, hpos⟩ := inverse_answered_of_parsed s ha hm h
    exact writes_missing_iff s ha hm hx hy hpos
  failed_left ha := ofInvocation_inverse_failed_left s (fitted_of_none ha .w64) m
  exceeded_left _ ha hx := ofInvocation_inverse_failed_left s (fitted_of_not_holds ha hx) m
  failed_right _ ha hx hm :=
    ofInvocation_inverse_failed_right s (fitted_of_holds ha hx) (fitted_of_none hm .w64)
  exceeded_right _ _ ha hx hm hy :=
    ofInvocation_inverse_failed_right s (fitted_of_holds ha hx) (fitted_of_not_holds hm hy)
  refused _ _ ha hx hm hy h :=
    ofInvocation_inverse_refused s (fitted_of_holds ha hx) (fitted_of_holds hm hy) h

/-- Every two texts can be asked for their greatest common divisor, in either width, and for an
inverse. Whoever reads the command line, each of these runs ends as laid down, and where both widths
answer they print one row. -/
theorem common_divisors_answered (a b : String) :
    (∀ w : IntWidth,
      Invocation.ofWords {} ["egcd", "--bits", toString w.bits, "--", a, b] =
        .ok { request := .egcd a b w }) ∧
    Invocation.ofWords {} ["inverse", "--", a, b] = .ok { request := .inverse a b } ∧
    (∃ row : Bezout,
      (∀ x y, Numeral.parse? a = some x → Numeral.parse? b = some y → ¬ (x = 0 ∧ y = 0) →
        x * row.x + y * row.y = row.gcd ∧ row.gcd = Int.gcd x y ∧ 0 < row.gcd) ∧
      ∀ (read : Reader) env words s w,
        read env words = .ok { settings := s, request := .egcd a b w } →
        DivisorOutcome s a b w row (ofWords read env words)) ∧
    ∀ (read : Reader) env words s,
      read env words = .ok { settings := s, request := .inverse a b } →
      InverseOutcome s a b (ofWords read env words) := by
  obtain ⟨row, hrow⟩ := exists_row a b
  refine ⟨fun w => ?_, rfl, ⟨row, fun x y ha hb hne => ?_, fun read env words s w hread => ?_⟩,
    fun read env words s hread => ?_⟩
  · cases w <;> rfl
  · have hrepresents := Bezout.represents_ofPair x y
    rw [hrow x y ha hb]
    exact ⟨hrepresents.sum_eq, hrepresents.gcd_eq, hrepresents.gcd_pos hne⟩
  · rw [ofWords_eq hread]
    exact divisorOutcome s hrow w
  · rw [ofWords_eq hread]
    exact inverseOutcome s a b

/-- The least integer of the smaller width has no common divisor with zero there, and has one in
the larger width. An operand past the larger width hides that a modulus is no integer. -/
theorem common_divisors_answered_least :
    (ofWords Invocation.ofWords {}
      ["egcd", "--bits", "32", "--", "-2147483648", "0"]).exitStatus = 4 ∧
    (∃ row : Bezout, -2147483648 * row.x + 0 * row.y = row.gcd ∧ row.gcd = 2147483648 ∧
      Writes (rowText {} row)
        (ofWords Invocation.ofWords {} ["egcd", "--bits", "64", "--", "-2147483648", "0"])) ∧
    Writes "3\n" (ofWords Invocation.ofWords {} ["inverse", "--", "-0x3", "10"]) ∧
    ofWords Invocation.ofWords {} ["inverse", "--", "9223372036854775808", "ten"] =
      .failed (.outOfRange "9223372036854775808" 64) := by
  have hleast : Numeral.parse? "-2147483648" = some (-2147483648) := by decide +kernel
  have hzero : Numeral.parse? "0" = some 0 := by decide +kernel
  have hthree : Numeral.parse? "-0x3" = some (-3) := by decide +kernel
  have hten : Numeral.parse? "10" = some 10 := by decide +kernel
  have hlarge : Numeral.parse? "9223372036854775808" = some 9223372036854775808 := by
    decide +kernel
  obtain ⟨hread, _, ⟨row, hrow, hends⟩, _⟩ := common_divisors_answered "-2147483648" "0"
  obtain ⟨hsum, hgcd, _⟩ := hrow _ _ hleast hzero (by decide)
  have hsmaller := (hends _ _ _ _ _ (hread .w32)).extreme _ _ hleast hzero
    (by decide) (by decide) (by decide) (by decide)
  have hlarger := hends _ _ _ _ _ (hread .w64)
  have hanswered := hlarger.answered_iff.mpr
    ⟨_, _, hleast, hzero, by decide, by decide, by decide⟩
  obtain ⟨_, hreadThree, _, hinverse⟩ := common_divisors_answered "-0x3" "10"
  have hoperand := hinverse _ _ _ _ hreadThree
  have hstatus := hoperand.answered_iff.mpr ⟨_, _, hthree, hten, by decide, by decide⟩
  obtain ⟨v, hv, hwrites⟩ := hoperand.writes hstatus _ _ hthree hten (by decide)
  obtain rfl : 3 = v := (hv 3).mp (by decide)
  obtain ⟨_, hreadLarge, _, hexceeded⟩ := common_divisors_answered "9223372036854775808" "ten"
  exact ⟨congrArg exitStatus hsmaller, ⟨row, hsum, hgcd, hlarger.writes hanswered⟩, hwrites,
    (hexceeded _ _ _ _ hreadLarge).exceeded_left _ hlarge (by decide)⟩

end Ending

end FermatMul.CommandLine
