import FermatMul.CommandLine.Failure
import FermatMul.CommandLine.Invocation
import FermatMul.Product.Integer
import FermatMul.Text.Numeral

namespace FermatMul.CommandLine

inductive Answer where
  | help
  | version
  | completion (shell : Shell)
  | product (value : Int) (threshold : Nat)
  | bezout (row : Bezout)
  | inverse (a modulus : Int) (result : Option Int)
  deriving DecidableEq, Repr

def readOperand (text : String) : Except Failure Int :=
  match Text.Numeral.parse? text with
  | some v => .ok v
  | none => .error (.parse text)

def fitOperand (w : IntWidth) (v : Int) : Except Failure Int :=
  if w.Holds v then .ok v else .error (.outOfRange (Text.Digits.decimalText v) w.bits)

namespace Answer

/-- A product, checked against a second computation where that is asked for. -/
def ofProduct (t : Tuning) (computed : Integer.Traced) (reference : Int) (verify : Bool) :
    Except Failure Answer :=
  if verify && computed.value ≠ reference then .error .mismatch
  else .ok (.product computed.value t.threshold)

def ofInvocation (i : Invocation) : Except Failure Answer := do
  let t := i.settings.tuning
  match i.request with
  | .help => return .help
  | .version => return .version
  | .completion shell => return .completion shell
  | .mul a b verify =>
      let a ← readOperand a
      let b ← readOperand b
      ofProduct t (Integer.multiply t a b) (a * b) verify
  | .square a verify =>
      let a ← readOperand a
      ofProduct t (Integer.square t a) (a * a) verify
  | .egcd a b width =>
      let a ← readOperand a
      let b ← readOperand b
      let a ← fitOperand width a
      let b ← fitOperand width b
      let row ← (Bezout.extendedGcd width a b).mapError Failure.ofRefusal
      return .bezout row
  | .inverse a modulus =>
      let a ← fitOperand .w64 (← readOperand a)
      let modulus ← fitOperand .w64 (← readOperand modulus)
      let result ← (Bezout.inverse .w64 a modulus).mapError Failure.ofRefusal
      return .inverse a modulus result

end Answer

end FermatMul.CommandLine
