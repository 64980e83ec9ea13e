import FermatMul.Refusal

namespace FermatMul

inductive IntWidth where
  | w32
  | w64
  deriving DecidableEq, Repr

namespace IntWidth

open scoped FermatMul.CorePower

def bits : IntWidth → Nat
  | w32 => 32
  | w64 => 64

def Holds (w : IntWidth) (v : Int) : Prop :=
  -2 ^ (w.bits - 1) ≤ v ∧ v < 2 ^ (w.bits - 1)

instance (w : IntWidth) (v : Int) : Decidable (w.Holds v) :=
  inferInstanceAs (Decidable (_ ∧ _))

end IntWidth

/-- A common divisor of two integers as a combination of both. -/
structure Bezout where
  x : Int
  y : Int
  gcd : Int
  deriving DecidableEq, Repr

namespace Bezout

def remainder (u v : Bezout) : Bezout :=
  let q := u.gcd.tdiv v.gcd
  { x := u.x - q * v.x, y := u.y - q * v.y, gcd := u.gcd - q * v.gcd }

theorem natAbs_gcd_remainder_lt (u : Bezout) {v : Bezout} (h : v.gcd ≠ 0) :
    (remainder u v).gcd.natAbs < v.gcd.natAbs := by
  have hmod : (remainder u v).gcd = u.gcd.tmod v.gcd := by
    rw [Int.tmod_def, Int.mul_comm]
    rfl
  rw [hmod, Int.natAbs_tmod]
  exact Nat.mod_lt _ (Int.natAbs_pos.mpr h)

/-- The last row of the recurrence before the remainder is zero. -/
def descend (u v : Bezout) : Bezout :=
  if h : v.gcd = 0 then u
  else
    have := natAbs_gcd_remainder_lt u h
    descend v (remainder u v)
termination_by v.gcd.natAbs

def neg (u : Bezout) : Bezout :=
  { x := -u.x, y := -u.y, gcd := -u.gcd }

def ofPair (a b : Int) : Bezout :=
  let last := descend { x := 1, y := 0, gcd := a } { x := 0, y := 1, gcd := b }
  if last.gcd < 0 then last.neg else last

def narrow (w : IntWidth) (a b result : Int) : Except Refusal Int :=
  if w.Holds result then .ok result else .error (.widthExceeded result a b)

/-- The Bézout row of two integers of a width, where they are not both zero and the row has that
width as well. -/
def extendedGcd (w : IntWidth) (a b : Int) : Except Refusal Bezout := do
  if a = 0 ∧ b = 0 then throw .noCommonDivisor
  let row := ofPair a b
  return {
    x := ← narrow w a b row.x
    y := ← narrow w a b row.y
    gcd := ← narrow w a b row.gcd }

/-- The inverse of `a` in `[0, modulus)`, where there is one. -/
def inverse (w : IntWidth) (a modulus : Int) : Except Refusal (Option Int) :=
  if modulus ≤ 0 then .error (.modulusNotPositive modulus)
  else if modulus = 1 then .ok (some 0)
  else if a % modulus = 0 then .ok none
  else do
    let row ← extendedGcd w (a % modulus) modulus
    return if row.gcd = 1 then some (row.x % modulus) else none

end Bezout

end FermatMul
