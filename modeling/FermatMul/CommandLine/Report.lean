import FermatMul.BinaryLength
import FermatMul.CommandLine.Answer

namespace FermatMul.CommandLine.Answer

def abbreviateAbove : Nat := 100

def keptEnds : Nat := 50

/-- A result in decimal. Unless all of it is asked for, a long one keeps only its ends, of which
the first one includes the sign. -/
def resultText (value : Int) (verbose : Bool) : String :=
  let text := Text.Digits.decimalText value
  let cs := text.toList
  let count := (cs.dropWhile (· == '-')).length
  if !verbose && abbreviateAbove < count then
    let head := String.ofList (cs.take keptEnds)
    let last := String.ofList (cs.drop (cs.length - keptEnds))
    s!"{head}...{last} ({count} digits)"
  else text

def summaryText (value : Int) (threshold : Nat) (elapsed : String) : String :=
  s!"{binaryLength value.natAbs} bits, threshold {threshold} bits, {elapsed}"

/-- The text of an answer. The texts of the help and of completions are not written here. -/
def render (s : Settings) (elapsed : String) : Answer → String
  | help | completion _ => ""
  | version => "ssmul 0.1.0\n"
  | product value threshold =>
      if s.quiet then Text.Digits.decimalText value ++ "\n"
      else if s.verbose then
        resultText value true ++ "\n" ++ summaryText value threshold elapsed ++ "\n"
      else resultText value false ++ "\n"
  | bezout row =>
      let x := Text.Digits.decimalText row.x
      let y := Text.Digits.decimalText row.y
      let gcd := Text.Digits.decimalText row.gcd
      if s.quiet then s!"{x} {y} {gcd}\n" else s!"x = {x}, y = {y}, gcd = {gcd}\n"
  | inverse _ _ (some v) => Text.Digits.decimalText v ++ "\n"
  | inverse a modulus none =>
      if s.quiet then "none\n"
      else
        "no inverse: gcd(" ++ Text.Digits.decimalText a ++ ", " ++
          Text.Digits.decimalText modulus ++ ") != 1\n"

end FermatMul.CommandLine.Answer
