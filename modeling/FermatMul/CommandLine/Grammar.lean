import FermatMul.Bezout

namespace FermatMul.CommandLine

inductive Subcommand where
  | mul
  | square
  | egcd
  | inverse
  deriving DecidableEq, Repr

namespace Subcommand

def all : List Subcommand := [mul, square, egcd, inverse]

def name : Subcommand → String
  | mul => "mul"
  | square => "square"
  | egcd => "egcd"
  | inverse => "inverse"

def operands : Subcommand → Nat
  | square => 1
  | _ => 2

end Subcommand

inductive Shell where
  | bash
  | elvish
  | fish
  | powershell
  | zsh
  deriving DecidableEq, Repr

namespace Shell

def all : List Shell := [bash, elvish, fish, powershell, zsh]

def name : Shell → String
  | bash => "bash"
  | elvish => "elvish"
  | fish => "fish"
  | powershell => "powershell"
  | zsh => "zsh"

def ofName? (s : String) : Option Shell :=
  all.find? (·.name == s)

end Shell

inductive Flag where
  | threshold
  | parallel
  | quiet
  | verbose
  | completion
  | verify
  | bits
  | help
  | version
  deriving DecidableEq, Repr

namespace Flag

def long : Flag → String
  | threshold => "threshold"
  | parallel => "parallel-threshold"
  | quiet => "quiet"
  | verbose => "verbose"
  | completion => "completion"
  | verify => "verify"
  | bits => "bits"
  | help => "help"
  | version => "version"

def short? : Flag → Option Char
  | quiet => some 'q'
  | verbose => some 'v'
  | help => some 'h'
  | version => some 'V'
  | _ => none

def takesValue : Flag → Bool
  | threshold | parallel | completion | bits => true
  | _ => false

end Flag

inductive Scope where
  | program
  | within (c : Subcommand)
  deriving DecidableEq, Repr

namespace Scope

def flags : Scope → List Flag
  | program => [.threshold, .parallel, .quiet, .verbose, .completion, .help, .version]
  | within .mul => [.threshold, .parallel, .quiet, .verbose, .verify, .help]
  | within .square => [.threshold, .parallel, .quiet, .verbose, .verify, .help]
  | within .egcd => [.threshold, .parallel, .quiet, .verbose, .bits, .help]
  | within .inverse => [.threshold, .parallel, .quiet, .verbose, .help]

def operands : Scope → Nat
  | program => 0
  | within c => c.operands

def ofLong? (s : Scope) (name : String) : Option Flag :=
  s.flags.find? (·.long == name)

def ofShort? (s : Scope) (letter : Char) : Option Flag :=
  s.flags.find? (·.short? == some letter)

inductive Selection where
  | help
  | subcommand (c : Subcommand)

def helpWord : String := "help"

/-- The subcommand that a word selects; there is none behind another subcommand. -/
def select? : Scope → String → Option Selection
  | program, word =>
      if word = helpWord then some .help
      else (Subcommand.all.find? (·.name == word)).map .subcommand
  | within _, _ => none

end Scope

inductive UsageError where
  /-- A flag that the place does not admit, or one operand too many. -/
  | unknownArgument
  | invalidSubcommand
  | missingArgument
  /-- A value that is not among the choices, or a flag without its value. -/
  | invalidValue
  | malformedNumber
  | tooManyValues
  | argumentConflict
  deriving DecidableEq, Repr

inductive Token where
  /-- Two dashes: no flag follows. -/
  | separator
  | long (name : String) (value : Option String)
  /-- A dash and letters. -/
  | short (letters : List Char)
  /-- Anything else, a single dash included. -/
  | plain
  deriving DecidableEq, Repr

/-- Splits a name from the value behind the first equals sign. -/
def splitValue (cs : List Char) : Token :=
  let name := cs.takeWhile (· ≠ '=')
  match cs.dropWhile (· ≠ '=') with
  | [] => .long (String.ofList name) none
  | _ :: value => .long (String.ofList name) (some (String.ofList value))

def Token.ofWord (word : String) : Token :=
  match word.toList with
  | ['-', '-'] => .separator
  | '-' :: '-' :: cs => splitValue cs
  | ['-'] => .plain
  | '-' :: cs => .short cs
  | _ => .plain

end FermatMul.CommandLine
