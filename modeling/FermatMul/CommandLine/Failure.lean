import FermatMul.Refusal
import FermatMul.Text.Quoted

namespace FermatMul.CommandLine

inductive Failure where
  | parse (text : String)
  | outOfRange (operand : String) (bits : Nat)
  | mismatch
  | arithmetic (kind : Refusal.Kind) (reason : String)
  | unclassified (message : String)
  deriving DecidableEq, Repr

namespace Failure

def ofRefusal (e : Refusal) : Failure :=
  .arithmetic e.kind e.reason

def exitStatus : Failure → Nat
  | mismatch => 3
  | parse _ | outOfRange .. | arithmetic .invalidArgument _ => 4
  | arithmetic .arithmeticUndefined _ | unclassified _ => 1

def message : Failure → String
  | parse text =>
      "cannot parse operand " ++ Text.Quoted.encode text ++
        ": expected a decimal or 0x-prefixed hex integer"
  | outOfRange operand bits => s!"operand {operand} does not fit in {bits} bits"
  | mismatch => "result mismatch against reference multiplication"
  | arithmetic kind reason => kind.lead ++ reason
  | unclassified message => message

end Failure

end FermatMul.CommandLine
