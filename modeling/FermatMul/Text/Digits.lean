namespace FermatMul.Text

inductive Radix where
  | decimal
  | hexadecimal
  deriving DecidableEq, Repr

namespace Radix

def base : Radix → Nat
  | decimal => 10
  | hexadecimal => 16

theorem two_le_base (r : Radix) : 2 ≤ r.base := by
  cases r <;> decide

end Radix

namespace Digits

/-- The digit of a value below sixteen, in lower case. -/
def digit (d : Nat) : Char :=
  if d < 10 then Char.ofNat (48 + d) else Char.ofNat (87 + d)

def value? (r : Radix) (c : Char) : Option Nat :=
  let d :=
    if 48 ≤ c.toNat ∧ c.toNat ≤ 57 then c.toNat - 48
    else if 65 ≤ c.toNat ∧ c.toNat ≤ 70 then c.toNat - 55
    else if 97 ≤ c.toNat ∧ c.toNat ≤ 102 then c.toNat - 87
    else r.base
  if d < r.base then some d else none

/-- Writes a number in front of other characters. -/
def onto (r : Radix) (n : Nat) (cs : List Char) : List Char :=
  if n < r.base then digit n :: cs
  else onto r (n / r.base) (digit (n % r.base) :: cs)
termination_by n
decreasing_by
  have := r.two_le_base
  exact Nat.div_lt_self (by omega) (by omega)

/-- The digits of a number, most significant first; zero has one digit. -/
def ofNat (r : Radix) (n : Nat) : List Char :=
  onto r n []

def readOnto (r : Radix) : List Char → Nat → Option Nat
  | [], n => some n
  | c :: cs, n =>
      match value? r c with
      | some d => readOnto r cs (r.base * n + d)
      | none => none

def toNat? (r : Radix) : List Char → Option Nat
  | [] => none
  | c :: cs => readOnto r (c :: cs) 0

def decimalText (v : Int) : String :=
  let digits := ofNat .decimal v.natAbs
  String.ofList (if v < 0 then '-' :: digits else digits)

end Digits

end FermatMul.Text
