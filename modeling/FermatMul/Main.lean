import FermatMul.CommandLine.Ending
import FermatMul.Text.Duration

open FermatMul FermatMul.CommandLine

namespace FermatMul.CommandLine.LibraryTexts

def helpText : String :=
  "Schönhage-Strassen multiplication and extended Euclid toolkit

Usage: ssmul [OPTIONS] [COMMAND]

Commands:
  mul      Multiply two integers (decimal or 0x-prefixed hex)
  square   Square an integer
  egcd     Bézout coefficients and gcd: prints x, y, gcd with a*x + b*y = gcd
  inverse  Modular inverse of a modulo a positive modulus
  help     Print this message

Options:
      --threshold <BITS>          Operand size from which the transform is used (0 = default)
      --parallel-threshold <LEN>  Transform length from which work is parallel (0 = default)
  -q, --quiet                     Quiet mode (only output the result)
  -v, --verbose                   Verbose output (full values, timings, debug logs)
      --completion <SHELL>        Generate shell completion
      --verify                    Check a product (mul, square)
      --bits <32|64>              Integer width (egcd)
  -h, --help                      Print this message
  -V, --version                   Print the version
"

def completionWords : String :=
  String.intercalate " " (Subcommand.all.map (·.name) ++ [Scope.helpWord])

def completionText (shell : Shell) : String :=
  match shell with
  | .bash => "complete -W '" ++ completionWords ++ "' ssmul\n"
  | .elvish =>
      "set edit:completion:arg-completer[ssmul] = \x7b|@words| put " ++ completionWords ++
        " \x7d\n"
  | .fish => "complete -c ssmul -f -a '" ++ completionWords ++ "'\n"
  | .powershell =>
      "Register-ArgumentCompleter -Native -CommandName ssmul -ScriptBlock \x7b '" ++
        completionWords ++ "' -split ' ' \x7d\n"
  | .zsh => "compdef '_arguments \"1: :(" ++ completionWords ++ ")\"' ssmul\n"

def misuseText (e : UsageError) : String :=
  let reason :=
    match e with
    | .unknownArgument => "unexpected argument"
    | .invalidSubcommand => "unrecognized subcommand"
    | .missingArgument => "a required argument is missing"
    | .invalidValue => "invalid value"
    | .malformedNumber => "a size must be a number below 2^64"
    | .tooManyValues => "unexpected value"
    | .argumentConflict => "an argument was given twice"
  "error: " ++ reason ++ "\n\nFor more information, try '--help'.\n"

def fieldsText : LogEvent → String
  | .step (.multiply aBits bBits threshold) =>
      s!"mult a_bits={aBits} b_bits={bBits} threshold={threshold}"
  | .step (.square bits threshold) => s!"square bits={bits} threshold={threshold}"
  | .step e => e.message
  | .computed bits => s!"product computed bits={bits}"

def standard : LibraryTexts where
  help := helpText
  completion := completionText
  misuse := misuseText
  line _ e := e.level.label ++ " " ++ fieldsText e ++ "\n"

end FermatMul.CommandLine.LibraryTexts

def main (args : List String) : IO UInt32 := do
  let env : Environment :=
    { threshold := ← IO.getEnv Environment.thresholdName
      parallel := ← IO.getEnv Environment.parallelName }
  let start ← IO.monoNanosNow
  let ending := Ending.ofWords Invocation.ofWords env args
  -- printing what went wrong needs the ending, so the clock is read again after it is known
  IO.eprint (ending.diagnostics .standard)
  let stop ← IO.monoNanosNow
  let elapsed := (Text.Duration.ofParts 0 (stop - start)).text
  IO.print (ending.output .standard elapsed)
  return UInt32.ofNat ending.exitStatus
