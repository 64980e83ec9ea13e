import FermatMul.CommandLine.Report
import FermatMul.Proofs.CommandLine.Operands

/-!
Results in text. One that is written whole is read back as the same integer, and its sign stands
apart from its digits. A longer one tells how many digits it has without the sign, but a sign is one
of the first characters that are kept, so one digit less is.
-/

namespace FermatMul.CommandLine.Answer

open FermatMul.Text

variable {v : Int} {verbose : Bool}

/-- The decimal digits of an integer without its sign. -/
def digits (v : Int) : List Char :=
  Nat.toDigits 10 v.natAbs

@[simp] theorem digits_neg (v : Int) : digits (-v) = digits v := by
  rw [digits, digits, Int.natAbs_neg]

theorem digits_eq (v : Int) : digits v = Digits.ofNat .decimal v.natAbs :=
  (Digits.ofNat_eq_toDigits .decimal v.natAbs).symm

theorem ne_minus_of_mem_digits {c : Char} (hc : c ∈ digits v) : c ≠ '-' := by
  rw [digits_eq] at hc
  obtain ⟨d, hd⟩ := (Digits.denotes_ofNat .decimal v.natAbs).isDigit c hc
  exact hd.ne rfl

theorem toList_decimalText (v : Int) :
    (Digits.decimalText v).toList = (if v < 0 then ['-'] else []) ++ digits v := by
  rw [digits_eq, ← Numeral.decimalForm_eq, Numeral.decimalForm, Digits.decimalText_eq_toString]

theorem dropWhile_decimalText (v : Int) :
    (Digits.decimalText v).toList.dropWhile (· == '-') = digits v := by
  have hdigits : (digits v).dropWhile (· == '-') = digits v := by
    rw [List.dropWhile_eq_self_iff]
    intro h
    simpa using ne_minus_of_mem_digits (List.getElem_mem h)
  rw [toList_decimalText]
  split
  · exact hdigits
  · exact hdigits

theorem decimalText_neg (hv : 0 < v) :
    Digits.decimalText (-v) = "-" ++ Digits.decimalText v := by
  apply String.toList_inj.mp
  rw [String.toList_append, toList_decimalText, toList_decimalText, if_pos (by omega),
    if_neg (by omega), digits_neg]
  rfl

theorem readOperand_decimalText (v : Int) : readOperand (Digits.decimalText v) = .ok v := by
  apply readOperand_of_some
  apply Numeral.parse?_of_denotes
  rw [toList_decimalText, digits_eq]
  exact Numeral.denotes_of_natAbs (Numeral.unsigned_decimal v.natAbs)

/-- The two ends of a number and how many digits it has. -/
def ends (first last : List Char) (count : Nat) : String :=
  String.ofList first ++ "..." ++ String.ofList last ++ " (" ++ toString count ++ " digits)"

theorem resultText_eq (v : Int) (verbose : Bool) :
    resultText v verbose =
      let text := (Digits.decimalText v).toList
      if verbose = false ∧ 100 < (digits v).length then
        ends (text.take 50) (text.drop (text.length - 50)) (digits v).length
      else Digits.decimalText v := by
  have hguard : (!verbose && decide (abbreviateAbove < (digits v).length)) = true ↔
      verbose = false ∧ 100 < (digits v).length := by
    rw [Bool.and_eq_true, Bool.not_eq_true', decide_eq_true_eq, abbreviateAbove]
  simp only [resultText, dropWhile_decimalText, hguard]
  rfl

theorem resultText_whole (h : verbose = true ∨ (digits v).length ≤ 100) :
    resultText v verbose = Digits.decimalText v := by
  rw [resultText_eq]
  apply if_neg
  rintro ⟨hquiet, hlong⟩
  rcases h with h | h
  · exact Bool.false_ne_true (hquiet.symm.trans h)
  · omega

/-- The last characters that are kept are digits, since there are more digits than that. -/
theorem resultText_abbreviated (h : 100 < (digits v).length) :
    resultText v false =
      ends (((if v < 0 then ['-'] else []) ++ digits v).take 50)
        ((digits v).drop ((digits v).length - 50)) (digits v).length := by
  have hlast : ∀ sign : List Char, (sign ++ digits v).drop ((sign ++ digits v).length - 50) =
      (digits v).drop ((digits v).length - 50) := by
    intro sign
    have hcount : (sign ++ digits v).length - 50 = sign.length + ((digits v).length - 50) := by
      rw [List.length_append]
      omega
    rw [hcount, List.drop_length_add_append]
  rw [resultText_eq, if_pos ⟨rfl, h⟩, toList_decimalText, hlast]

theorem resultText_abbreviated_of_nonneg (hv : 0 ≤ v) (h : 100 < (digits v).length) :
    resultText v false =
      ends ((digits v).take 50) ((digits v).drop ((digits v).length - 50)) (digits v).length := by
  rw [resultText_abbreviated h, if_neg (by omega), List.nil_append]

theorem resultText_neg_abbreviated (hv : 0 < v) (h : 100 < (digits v).length) :
    resultText (-v) false =
      ends ('-' :: (digits v).take 49) ((digits v).drop ((digits v).length - 50))
        (digits v).length := by
  rw [← digits_neg] at h
  rw [resultText_abbreviated h, if_pos (by omega), digits_neg]
  rfl

/-- The text with a sign keeps one digit less, so it is not the other one behind a sign. -/
theorem resultText_neg_ne (hv : 0 < v) (h : 100 < (digits v).length) :
    resultText (-v) false ≠ "-" ++ resultText v false := by
  rw [resultText_neg_abbreviated hv h, resultText_abbreviated_of_nonneg hv.le h]
  intro heq
  have hlength := congrArg String.length heq
  have hsign : "-".length = 1 := rfl
  simp only [ends, String.length_append, String.length_ofList, List.length_cons,
    List.length_take] at hlength
  omega

/-- A result written whole, because all of it is asked for or it has at most a hundred digits, is
read back as the same integer, and the sign stands apart from it. A longer one shows its last fifty
digits and how many there are whatever its sign, but of the first ones it shows fifty without a sign
and one less behind a sign. -/
theorem results_written (v : Int) :
    (∀ verbose, verbose = true ∨ (digits v).length ≤ 100 →
      readOperand (resultText v verbose) = .ok v ∧
        (0 < v → resultText (-v) verbose = "-" ++ resultText v verbose)) ∧
    (0 < v → 100 < (digits v).length →
      let last := (digits v).drop ((digits v).length - 50)
      resultText v false = ends ((digits v).take 50) last (digits v).length ∧
        resultText (-v) false = ends ('-' :: (digits v).take 49) last (digits v).length ∧
        resultText (-v) false ≠ "-" ++ resultText v false) := by
  constructor
  · intro verbose h
    have hneg : verbose = true ∨ (digits (-v)).length ≤ 100 := by rwa [digits_neg]
    rw [resultText_whole h, resultText_whole hneg]
    exact ⟨readOperand_decimalText v, decimalText_neg⟩
  · intro hv h
    exact ⟨resultText_abbreviated_of_nonneg hv.le h, resultText_neg_abbreviated hv h,
      resultText_neg_ne hv h⟩

/-- The least number with more than a hundred digits, written whole and abbreviated. -/
theorem results_written_least :
    readOperand (resultText (10 ^ 100) true) = .ok (10 ^ 100) ∧
      resultText (-10 ^ 100) true = "-" ++ resultText (10 ^ 100) true ∧
      (0 < (10 : Int) ^ 100 ∧ 100 < (digits (10 ^ 100)).length) ∧
      resultText (-10 ^ 100) false =
        ends ('-' :: '1' :: List.replicate 48 '0') (List.replicate 50 '0') 101 := by
  obtain ⟨hwhole, hlong⟩ := results_written (10 ^ 100)
  have hpos : 0 < (10 : Int) ^ 100 := by decide
  have hcount : 100 < (digits (10 ^ 100)).length := by decide
  obtain ⟨hback, hsign⟩ := hwhole true (.inl rfl)
  obtain ⟨_, hkept, _⟩ := hlong hpos hcount
  exact ⟨hback, hsign hpos, ⟨hpos, hcount⟩, hkept.trans (by decide)⟩

/-- The sign does not stand apart from an abbreviated number. -/
theorem sign_displaces_digit :
    ¬ ∀ v : Int, 0 < v → ∀ verbose, resultText (-v) verbose = "-" ++ resultText v verbose := by
  intro h
  exact resultText_neg_ne (v := 10 ^ 100) (by decide) (by decide) (h _ (by decide) false)

end FermatMul.CommandLine.Answer
