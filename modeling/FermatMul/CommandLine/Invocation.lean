import FermatMul.CommandLine.Grammar
import FermatMul.Text.Digits
import FermatMul.Tuning

/-!
The reading of a command line. The words before a subcommand and those behind it form two levels
with flags of their own; what both of them give is then joined, and the environment stands in for
sizes that neither gives.
-/

namespace FermatMul.CommandLine

inductive Request where
  | help
  | version
  | completion (shell : Shell)
  | mul (a b : String) (verify : Bool)
  | square (a : String) (verify : Bool)
  | egcd (a b : String) (width : IntWidth)
  | inverse (a modulus : String)
  deriving DecidableEq, Repr

structure Settings where
  threshold : Nat := 0
  parallel : Nat := 0
  quiet : Bool := false
  verbose : Bool := false
  deriving DecidableEq, Repr

namespace Settings

def tuning (s : Settings) : Tuning :=
  Tuning.normalize { threshold := s.threshold, parallel := s.parallel }

end Settings

structure Invocation where
  settings : Settings := {}
  request : Request
  deriving DecidableEq, Repr

/-- The variables that stand in for flags. The one that sets the levels of the log is taken to be
unset. -/
structure Environment where
  threshold : Option String := none
  parallel : Option String := none
  deriving DecidableEq, Repr

namespace Environment

def thresholdName : String := "SSMUL_THRESHOLD"

def parallelName : String := "SSMUL_PARALLEL_THRESHOLD"

end Environment

structure Level where
  threshold : Option Nat := none
  parallel : Option Nat := none
  quiet : Bool := false
  verbose : Bool := false
  completion : Option Shell := none
  verify : Bool := false
  bits : Option IntWidth := none
  operands : List String := []
  deriving Repr

inductive Halt where
  | usage (e : UsageError)
  | help
  | version
  deriving DecidableEq, Repr

/-- A machine word in decimal, with or without a plus sign. -/
def size? (text : String) : Option Nat :=
  let digits :=
    match text.toList with
    | '+' :: cs => cs
    | cs => cs
  (Text.Digits.toNat? .decimal digits).filter (· < Limits.indexBound)

def readSize (text : String) : Except Halt Nat :=
  match size? text with
  | some n => .ok n
  | none => .error (.usage .malformedNumber)

def readWidth (text : String) : Except Halt IntWidth :=
  match [IntWidth.w32, IntWidth.w64].find? (toString ·.bits == text) with
  | some w => .ok w
  | none => .error (.usage .invalidValue)

def readShell (text : String) : Except Halt Shell :=
  match Shell.ofName? text with
  | some s => .ok s
  | none => .error (.usage .invalidValue)

def once (given : Bool) : Except Halt Unit :=
  if given then .error (.usage .argumentConflict) else .ok ()

namespace Level

def enter (l : Level) (f : Flag) (value : String) : Except Halt Level := do
  match f with
  | .threshold =>
      once l.threshold.isSome
      return { l with threshold := some (← readSize value) }
  | .parallel =>
      once l.parallel.isSome
      return { l with parallel := some (← readSize value) }
  | .completion =>
      once l.completion.isSome
      return { l with completion := some (← readShell value) }
  | .bits =>
      once l.bits.isSome
      return { l with bits := some (← readWidth value) }
  | _ => return l

def switch (l : Level) (f : Flag) : Except Halt Level := do
  match f with
  | .quiet =>
      once l.quiet
      return { l with quiet := true }
  | .verbose =>
      once l.verbose
      return { l with verbose := true }
  | .verify =>
      once l.verify
      return { l with verify := true }
  | .help => throw .help
  | .version => throw .version
  | _ => return l

end Level

inductive Pending where
  | none
  | awaiting (f : Flag)
  | holding (f : Flag) (value : String)
  deriving DecidableEq, Repr

structure Reading where
  level : Level := {}
  pending : Pending := .none
  trailing : Bool := false
  deriving Repr

namespace Reading

def isAwaiting (r : Reading) : Bool :=
  match r.pending with
  | .awaiting _ => true
  | _ => false

/-- Enters the flag that is pending; one that still waits for its value is refused. -/
def settle (r : Reading) : Except Halt Reading :=
  match r.pending with
  | .none => .ok r
  | .awaiting _ => .error (.usage .invalidValue)
  | .holding f value => do
      let level ← r.level.enter f value
      return { r with level, pending := .none }

def switch (r : Reading) (f : Flag) : Except Halt Reading := do
  let r ← r.settle
  return { r with level := ← r.level.switch f }

def expectsOperand (s : Scope) (r : Reading) : Bool :=
  decide (r.level.operands.length < s.operands)

/-- Enters an operand. A word too many before a subcommand is taken for a wrong one, unless it
names one behind the separator. -/
def operand (s : Scope) (r : Reading) (word : String) : Except Halt Reading := do
  if r.expectsOperand s then
    let r ← r.settle
    return { r with level := { r.level with operands := r.level.operands ++ [word] } }
  else
    match s with
    | .within _ => throw (.usage .unknownArgument)
    | .program =>
        if r.trailing && (s.select? word).isSome then throw (.usage .unknownArgument)
        else throw (.usage .invalidSubcommand)

def word (s : Scope) (r : Reading) (w : String) : Except Halt Reading :=
  match r.pending with
  | .awaiting f => .ok { r with pending := .holding f w }
  | _ => r.operand s w

def letters (s : Scope) : List Char → Reading → Except Halt Reading
  | [], r => .ok r
  | c :: cs, r =>
      match s.ofShort? c with
      | some f => do letters s cs (← r.switch f)
      | none => .error (.usage .unknownArgument)

def long (r : Reading) (f : Flag) (value : Option String) : Except Halt Reading := do
  if f.takesValue then
    let r ← r.settle
    match value with
    | some v => return { r with level := ← r.level.enter f v }
    | none => return { r with pending := .awaiting f }
  else
    match value with
    | some _ => throw (.usage .tooManyValues)
    | none => r.switch f

/-- Enters one word. Where an operand is expected, what looks like a flag and is none is taken as
a word, so that operands may start with a dash. -/
def step (s : Scope) (r : Reading) (w : String) : Except Halt Reading :=
  if r.trailing then r.operand s w
  else
    match Token.ofWord w with
    | .separator => .ok { r with trailing := true }
    | .long name value =>
        match s.ofLong? name with
        | some f => r.long f value
        | none =>
            if r.expectsOperand s then r.word s w else .error (.usage .unknownArgument)
    | .short cs =>
        if r.expectsOperand s && cs.any (fun c => (s.ofShort? c).isNone) then r.word s w
        else r.letters s cs
    | .plain => r.word s w

/-- Checks the words behind the request for help: at most one subcommand. -/
def helpOn : List String → Halt
  | [] => .help
  | word :: words =>
      if (Scope.program.select? word).isSome && words.isEmpty then .help
      else .usage .invalidSubcommand

/-- Reads the words of a level, up to a subcommand and the words behind it. -/
def scan (s : Scope) : List String → Reading →
    Except Halt (Reading × Option (Subcommand × List String))
  | [], r => .ok (r, none)
  | w :: ws, r =>
      match if r.trailing || r.isAwaiting then none else s.select? w with
      | some .help => .error (helpOn ws)
      | some (.subcommand c) => .ok (r, some (c, ws))
      | none => do scan s ws (← r.step s w)

/-- Checks a variable of the environment, where the level does not give the flag itself. -/
def checkVariable (given : Option Nat) (fallback : Option String) : Except Halt Unit :=
  match given, fallback with
  | none, some text => do discard (readSize text)
  | _, _ => .ok ()

/-- Ends a level: its last value is entered, the environment is checked, and no operand may be
missing. -/
def finish (s : Scope) (env : Environment) (r : Reading) : Except Halt Level := do
  let r ← r.settle
  checkVariable r.level.threshold env.threshold
  checkVariable r.level.parallel env.parallel
  if r.expectsOperand s then throw (.usage .missingArgument)
  return r.level

end Reading

namespace Invocation

/-- A size by the level behind the subcommand, by the one before it, by the environment, or zero
for a default. -/
def sizeOf (inner outer : Option Nat) (fallback : Option String) : Nat :=
  ((inner <|> outer) <|> fallback.bind size?).getD 0

def settingsOf (env : Environment) (outer inner : Level) : Settings where
  threshold := sizeOf inner.threshold outer.threshold env.threshold
  parallel := sizeOf inner.parallel outer.parallel env.parallel
  quiet := outer.quiet || inner.quiet
  verbose := outer.verbose || inner.verbose

def requestOf (c : Subcommand) (l : Level) : Request :=
  let operand (i : Nat) : String := l.operands[i]?.getD ""
  match c with
  | .mul => .mul (operand 0) (operand 1) l.verify
  | .square => .square (operand 0) l.verify
  | .egcd => .egcd (operand 0) (operand 1) (l.bits.getD .w64)
  | .inverse => .inverse (operand 0) (operand 1)

/-- Reads a command line; without a subcommand it asks for help. -/
def read (env : Environment) (words : List String) : Except Halt Invocation := do
  let (outer, rest) ← Reading.scan .program words {}
  let inner ← rest.mapM fun (c, ws) => do
    let (r, _) ← Reading.scan (.within c) ws {}
    return (c, ← r.finish (.within c) env)
  let outer ← outer.finish .program env
  match outer.completion, inner with
  | some shell, _ => return { request := .completion shell }
  | none, none => return { request := .help }
  | none, some (c, l) => return { settings := settingsOf env outer l, request := requestOf c l }

def ofWords (env : Environment) (words : List String) : Except UsageError Invocation :=
  match read env words with
  | .ok i => .ok i
  | .error .help => .ok { request := .help }
  | .error .version => .ok { request := .version }
  | .error (.usage e) => .error e

end Invocation

end FermatMul.CommandLine
