import Mathlib.Tactic.IntervalCases
import FermatMul.Text.Digits

namespace FermatMul.Text.Digits

theorem digit_eq_digitChar {d : Nat} (h : d < 16) : digit d = Nat.digitChar d := by
  interval_cases d <;> rfl

theorem base_le (r : Radix) : r.base ≤ 16 := by
  cases r <;> decide

theorem onto_eq (r : Radix) (n : Nat) (cs : List Char) :
    onto r n cs = Nat.toDigits r.base n ++ cs := by
  have hbase := base_le r
  induction n, cs using onto.induct r with
  | case1 n cs hlow =>
      rw [onto, if_pos hlow, Nat.toDigits_of_lt_base hlow, digit_eq_digitChar (by omega)]
      rfl
  | case2 n cs hhigh ih =>
      have hdigit : n % r.base < 16 :=
        Nat.lt_of_lt_of_le (Nat.mod_lt _ (Nat.lt_of_lt_of_le Nat.two_pos r.two_le_base)) hbase
      rw [onto, if_neg hhigh, ih, digit_eq_digitChar hdigit,
        Nat.toDigits_of_base_le r.two_le_base (Nat.le_of_not_lt hhigh), List.append_assoc]
      rfl

theorem ofNat_eq_toDigits (r : Radix) (n : Nat) : ofNat r n = Nat.toDigits r.base n := by
  rw [ofNat, onto_eq, List.append_nil]

theorem decimalText_eq_toString (v : Int) : decimalText v = toString v := by
  cases v with
  | ofNat n =>
      have hsign : ¬ Int.ofNat n < 0 := Int.not_lt.mpr (Int.natCast_nonneg n)
      change _ = Nat.repr n
      rw [decimalText, if_neg hsign, ofNat_eq_toDigits, Nat.repr_eq_ofList_toDigits]
      rfl
  | negSucc n =>
      change _ = "-" ++ Nat.repr (n + 1)
      rw [decimalText, if_pos (Int.negSucc_lt_zero n), ofNat_eq_toDigits,
        Nat.repr_eq_ofList_toDigits]
      exact String.ofList_cons

end FermatMul.Text.Digits
