import FermatMul.Limits
import FermatMul.Text.Digits

namespace FermatMul.Text.Fixed

open scoped FermatMul.CorePower

/-- A quotient rounded to the nearest natural number, a tie to the even one. -/
def roundDiv (num den : Nat) : Nat :=
  let q := num / den
  let r := num % den
  if den < 2 * r ∨ (2 * r = den ∧ q % 2 = 1) then q + 1 else q

def render (places num den : Nat) : String :=
  let scaled := roundDiv (num * 10 ^ places) den
  let fraction := Digits.ofNat .decimal (scaled % 10 ^ places)
  String.ofList (Digits.ofNat .decimal (scaled / 10 ^ places) ++
    '.' :: List.replicate (places - fraction.length) '0' ++ fraction)

/-- The exact value of a finite double that is not negative, as a quotient. -/
def quotient (x : Float) : Nat × Nat :=
  let bits := x.toBits.toNat
  let exponent := bits / 2 ^ (52 : Nat) % 2 ^ (11 : Nat)
  let fraction := bits % 2 ^ (52 : Nat)
  if exponent = 0 then (fraction, 2 ^ (1074 : Nat))
  else if exponent < 1075 then (2 ^ (52 : Nat) + fraction, 2 ^ (1075 - exponent))
  else ((2 ^ (52 : Nat) + fraction) * 2 ^ (exponent - 1075), 1)

def renderFloat (places : Nat) (x : Float) : String :=
  render places (quotient x).1 (quotient x).2

end FermatMul.Text.Fixed
