import FermatMul.CommandLine.Answer
import FermatMul.Proofs.Text.Numeral

namespace FermatMul.CommandLine

open FermatMul.Text

variable {text : String} {v : Int}

theorem readOperand_of_some (h : Numeral.parse? text = some v) : readOperand text = .ok v := by
  rw [readOperand, h]

theorem readOperand_of_none (h : Numeral.parse? text = none) :
    readOperand text = .error (.parse text) := by
  rw [readOperand, h]

theorem readOperand_eq_ok_iff : readOperand text = .ok v ↔ Numeral.parse? text = some v := by
  rw [readOperand]
  split <;> simp_all

theorem fitOperand_of_holds {w : IntWidth} (h : w.Holds v) : fitOperand w v = .ok v :=
  if_pos h

theorem fitOperand_of_not_holds {w : IntWidth} (h : ¬ w.Holds v) :
    fitOperand w v = .error (.outOfRange (toString v) w.bits) := by
  rw [fitOperand, if_neg h, Digits.decimalText_eq_toString]

section Fitted

variable {w : IntWidth}

theorem fitted_of_none (h : Numeral.parse? text = none) (w : IntWidth) :
    (readOperand text >>= fitOperand w) = .error (.parse text) := by
  rw [readOperand_of_none h]
  rfl

theorem fitted_of_not_holds (h : Numeral.parse? text = some v) (hv : ¬ w.Holds v) :
    (readOperand text >>= fitOperand w) = .error (.outOfRange (toString v) w.bits) := by
  rw [readOperand_of_some h]
  exact fitOperand_of_not_holds hv

theorem fitted_of_holds (h : Numeral.parse? text = some v) (hv : w.Holds v) :
    (readOperand text >>= fitOperand w) = .ok v := by
  rw [readOperand_of_some h]
  exact fitOperand_of_holds hv

/-- An operand is read into a width, or its text or its integer is what fails. -/
theorem exists_fitted (text : String) (w : IntWidth) :
    (∃ v, Numeral.parse? text = some v ∧ w.Holds v) ∨
      ∃ e, (readOperand text >>= fitOperand w) = .error e ∧ e.exitStatus = 4 := by
  cases h : Numeral.parse? text with
  | none => exact .inr ⟨_, fitted_of_none h w, rfl⟩
  | some v =>
      by_cases hv : w.Holds v
      · exact .inl ⟨v, rfl, hv⟩
      · exact .inr ⟨_, fitted_of_not_holds h hv, rfl⟩

end Fitted

/-- What a reader of digits promises: without underscores and a sign before them it takes exactly
the digits of the base. It may take a sign and skip underscores as well. -/
structure ReadsDigits (read : Radix → List Char → Option Int) : Prop where
  eq_some_iff : ∀ r cs, '_' ∉ cs → cs.head? ≠ some '-' → cs.head? ≠ some '+' →
    ∀ v, read r cs = some v ↔ ∃ n : Nat, Digits.Denotes r cs n ∧ v = n

/-- An operand by a reader of digits: its own sign and the mark of its base are taken off first, and
what is left must not start with another sign. -/
def readOperandBy (read : Radix → List Char → Option Int) (text : String) : Except Failure Int :=
  let signed := Numeral.splitSign (Numeral.strip text)
  let based := Numeral.splitRadix signed.2
  if based.2.head? = some '-' ∨ based.2.head? = some '+' then .error (.parse text)
  else
    match read based.1 based.2 with
    | some v => .ok (if signed.1 then -v else v)
    | none => .error (.parse text)

section Readers

variable {read : Radix → List Char → Option Int}

theorem ReadsDigits.eq_map (h : ReadsDigits read) {r : Radix} {cs : List Char}
    (hunderscore : '_' ∉ cs) (hsign : ¬ (cs.head? = some '-' ∨ cs.head? = some '+')) :
    read r cs = (Digits.toNat? r cs).map fun n : Nat => (n : Int) := by
  obtain ⟨hminus, hplus⟩ := not_or.mp hsign
  ext v
  rw [h.eq_some_iff r cs hunderscore hminus hplus, Option.map_eq_some_iff]
  simp only [Digits.toNat?_eq_some_iff]
  exact exists_congr fun _ => and_congr_right fun _ => eq_comm

theorem toNat?_eq_none_of_sign {cs : List Char} (r : Radix)
    (h : cs.head? = some '-' ∨ cs.head? = some '+') : Digits.toNat? r cs = none := by
  cases cs with
  | nil => rfl
  | cons c cs =>
      rcases h with h | h
      · cases h
        exact Digits.toNat?_cons_eq_none (by cases r <;> rfl) cs
      · cases h
        exact Digits.toNat?_cons_eq_none (by cases r <;> rfl) cs

theorem underscore_notMem_body (text : String) :
    '_' ∉ (Numeral.splitRadix (Numeral.splitSign (Numeral.strip text)).2).2 := by
  intro hmem
  have hstrip := (Numeral.splitSign_suffix _).mem ((Numeral.splitRadix_suffix _).mem hmem)
  simpa using List.of_mem_filter hstrip

/-- The digits decide: the guard and the reader's promise leave no room for anything else. -/
theorem readOperandBy_eq (h : ReadsDigits read) (text : String) :
    readOperandBy read text = readOperand text := by
  rw [readOperand, Numeral.parse?, Numeral.ofChars?_eq]
  simp only [readOperandBy]
  split
  case isTrue hsign =>
    rw [toNat?_eq_none_of_sign _ hsign]
    rfl
  case isFalse hsign =>
    rw [h.eq_map (underscore_notMem_body text) hsign]
    cases Digits.toNat? _ (Numeral.splitRadix (Numeral.splitSign (Numeral.strip text)).2).2 <;> rfl

/-- A reader that takes one sign, and underscores between and behind the digits. -/
def readSigned (r : Radix) (cs : List Char) : Option Int :=
  let signed := Numeral.splitSign cs
  if signed.2.head? = some '_' then none
  else
    (Digits.toNat? r (signed.2.filter (· ≠ '_'))).map
      fun n : Nat => if signed.1 then -(n : Int) else n

theorem readsDigits_readSigned : ReadsDigits readSigned where
  eq_some_iff := by
    intro r cs hunderscore hminus hplus v
    have hsplit : Numeral.splitSign cs = (false, cs) := by
      cases cs with
      | nil => rfl
      | cons c cs =>
          rw [Numeral.splitSign_cons, if_neg (by simpa using hminus), if_neg (by simpa using hplus)]
    have hhead : cs.head? ≠ some '_' := fun h => hunderscore (List.mem_of_head? h)
    have hfilter : cs.filter (· ≠ '_') = cs := by
      rw [List.filter_eq_self]
      intro c hc
      simpa using ne_of_mem_of_not_mem hc hunderscore
    simp only [readSigned, hsplit, if_neg hhead, hfilter, Option.map_eq_some_iff,
      Digits.toNat?_eq_some_iff]
    exact exists_congr fun _ => and_congr_right fun _ => eq_comm

end Readers

/-- By any reader of digits, an operand is read exactly if what is left of it without the white
space around it and without underscores is of the grammar, as the integer that this denotes; any
other text is refused unchanged. Every spelling of an integer is read as that integer. -/
theorem operands_read {read : Radix → List Char → Option Int} (hread : ReadsDigits read)
    (text : String) :
    readOperandBy read text = readOperand text ∧
    (∃ core, Blank.Trimmed text.toList core ∧
      (∀ core', Blank.Trimmed text.toList core' → core' = core) ∧
      (∀ v, readOperand text = .ok v ↔ Numeral.Denotes (core.filter (· ≠ '_')) v) ∧
      ((∀ v, ¬ Numeral.Denotes (core.filter (· ≠ '_')) v) →
        readOperand text = .error (.parse text))) ∧
    ∀ v, Numeral.Shows text v → readOperand text = .ok v := by
  have htrimmed := Blank.trimmed_trim text.toList
  refine ⟨readOperandBy_eq hread text,
    ⟨_, htrimmed, fun core' h => h.eq.symm, fun v => ?_, fun hnone => ?_⟩, fun v h => ?_⟩
  · rw [readOperand_eq_ok_iff, Numeral.parse?_eq_some_iff htrimmed]
  · apply readOperand_of_none
    rw [Option.eq_none_iff_forall_ne_some]
    intro v h
    exact hnone v ((Numeral.parse?_eq_some_iff htrimmed).mp h)
  · exact readOperand_of_some (Numeral.parse?_of_shows h)

/-- A sign before the mark of the base is read, and one behind it is refused although the reader
takes it. -/
theorem operands_read_hexadecimal :
    ReadsDigits readSigned ∧ Numeral.Shows "\t-_0X1f_0 " (-496) ∧
      readOperandBy readSigned "\t-_0X1f_0 " = .ok (-496) ∧
      readSigned .hexadecimal ['-', '5'] = some (-5) ∧
      readOperandBy readSigned "0x-5" = .error (.parse "0x-5") := by
  have hshows : Numeral.Shows "\t-_0X1f_0 " (-496) :=
    ⟨['\t'], "-_0X1f_0".toList, [' '], by decide, List.forall_mem_singleton.mpr (by decide),
      List.forall_mem_singleton.mpr (by decide), .inl (.inr (by decide +kernel))⟩
  obtain ⟨hsigned, _, hspelled⟩ := operands_read readsDigits_readSigned "\t-_0X1f_0 "
  obtain ⟨hguarded, _⟩ := operands_read readsDigits_readSigned "0x-5"
  exact ⟨readsDigits_readSigned, hshows, hsigned.trans (hspelled _ hshows), by decide,
    hguarded.trans (readOperand_of_none (by decide +kernel))⟩

end FermatMul.CommandLine
