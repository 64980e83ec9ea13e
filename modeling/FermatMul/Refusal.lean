import FermatMul.Limits

namespace FermatMul

inductive ResidueOp where
  | reduce
  | add
  | sub
  | mul
  deriving DecidableEq, Repr

namespace ResidueOp

def label : ResidueOp → String
  | reduce => "mod_fn"
  | add => "add_mod_fn"
  | sub => "sub_mod_fn"
  | mul => "mult_mod_fn"

end ResidueOp

/-- The ways in which an operation refuses its arguments, each with the numbers that explain it. -/
inductive Refusal where
  /-- A residue has two halves of equal length, so an even word count that is not zero. -/
  | residueShape (op : ResidueOp) (words : Nat)
  | lengthMismatch (op : ResidueOp) (left right : Nat)
  | shortOperand (bits words left right : Nat)
  | exponentRange (n : Nat)
  | exponentPairing (m n : Nat)
  | coefficientCount (m n expected actual : Nat)
  | coefficientWidth (n words : Nat)
  | noCommonDivisor
  | widthExceeded (result a b : Int)
  | modulusNotPositive (modulus : Int)
  deriving DecidableEq, Repr

namespace Refusal

inductive Kind where
  | invalidArgument
  | arithmeticUndefined
  deriving DecidableEq, Repr

def Kind.lead : Kind → String
  | invalidArgument => "invalid argument: "
  | arithmeticUndefined => "arithmetic undefined: "

/-- Only a missing common divisor is undefined; every other refusal is an argument's fault. -/
def kind : Refusal → Kind
  | noCommonDivisor => .arithmeticUndefined
  | _ => .invalidArgument

def reason : Refusal → String
  | residueShape op words =>
      s!"{op.label}: Fermat residue needs a non-zero even word count, got {words}"
  | lengthMismatch op left right => s!"{op.label}: operand lengths differ ({left} vs {right})"
  | shortOperand bits words left right =>
      s!"sub_mod_pow2: {bits} bits need {words} words, got {left} and {right}"
  | exponentRange n =>
      s!"Fermat exponent n={n} outside {Limits.minExponent}..={Limits.maxExponent}"
  | exponentPairing m n => s!"exponents m={m}, n={n} do not match: n must be m/2 + 1"
  | coefficientCount m n expected actual =>
      s!"transform for m={m}, n={n} needs {expected} coefficients, got {actual}"
  | coefficientWidth n words => s!"every coefficient must hold {words} words for n={n}"
  | noCommonDivisor => "gcd(0, 0) has no Bézout pair"
  | widthExceeded result a b =>
      s!"extended Euclid result {result} for ({a}, {b}) does not fit the integer width"
  | modulusNotPositive modulus => s!"modulus must be positive, got {modulus}"

def message (e : Refusal) : String :=
  e.kind.lead ++ e.reason

end Refusal

end FermatMul
