import FermatMul.Text.Blank
import FermatMul.Text.Digits

namespace FermatMul.Text.Numeral

def splitSign : List Char → Bool × List Char
  | '-' :: cs => (true, cs)
  | '+' :: cs => (false, cs)
  | cs => (false, cs)

def splitRadix : List Char → Radix × List Char
  | '0' :: 'x' :: cs => (.hexadecimal, cs)
  | '0' :: 'X' :: cs => (.hexadecimal, cs)
  | cs => (.decimal, cs)

/-- The integer of a sign, the mark of a base and digits. -/
def ofChars? (cs : List Char) : Option Int :=
  let signed := splitSign cs
  let based := splitRadix signed.2
  (Digits.toNat? based.1 based.2).map fun n => if signed.1 then -(n : Int) else n

def strip (text : String) : List Char :=
  (Blank.trim text.toList).filter (· ≠ '_')

/-- Reads an integer as it is written on a command line: white space around it is ignored,
underscores may stand anywhere, a sign may come first, and `0x` introduces hexadecimal digits. -/
def parse? (text : String) : Option Int :=
  ofChars? (strip text)

end FermatMul.Text.Numeral
