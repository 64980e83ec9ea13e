import FermatMul.CommandLine.Ending
import FermatMul.Proofs.CommandLine.Operands
import FermatMul.Proofs.CommandLine.Reading
import FermatMul.Proofs.Product.Events

namespace FermatMul.CommandLine

open FermatMul.Text

theorem Failure.exitStatus_eq_three_iff {e : Failure} : e.exitStatus = 3 ↔ e = .mismatch := by
  cases e with
  | arithmetic kind reason => cases kind <;> simp [exitStatus]
  | _ => simp [exitStatus]

/-- A step that does not report two different products. -/
def Agrees {α : Type} (r : Except Failure α) : Prop := r ≠ .error .mismatch

theorem Agrees.bind {α β : Type} {r : Except Failure α} {f : α → Except Failure β} (hr : Agrees r)
    (hf : ∀ a, Agrees (f a)) : Agrees (r >>= f) := by
  cases r with
  | error e =>
      intro h
      cases h
      exact hr rfl
  | ok a => exact hf a

theorem agrees_readOperand (text : String) : Agrees (readOperand text) := by
  rw [readOperand]
  split <;> simp [Agrees]

theorem agrees_fitOperand (w : IntWidth) (v : Int) : Agrees (fitOperand w v) := by
  rw [fitOperand]
  split <;> simp [Agrees]

theorem agrees_mapError {α : Type} (r : Except Refusal α) :
    Agrees (r.mapError Failure.ofRefusal) := by
  cases r <;> exact nofun

namespace Answer

theorem ofProduct_eq {t : Tuning} {computed : Integer.Traced} {reference : Int} (verify : Bool)
    (h : computed.value = reference) :
    ofProduct t computed reference verify = .ok (.product reference t.threshold) := by
  subst h
  rw [ofProduct, if_neg (by simp)]

theorem ofInvocation_mul (s : Settings) (a b : String) (verify : Bool) :
    ofInvocation { settings := s, request := .mul a b verify } = do
      let x ← readOperand a
      let y ← readOperand b
      return .product (x * y) s.tuning.threshold := by
  simp only [ofInvocation, ofProduct_eq verify (Integer.value_multiply _ _ _)]
  rfl

theorem ofInvocation_square (s : Settings) (a : String) (verify : Bool) :
    ofInvocation { settings := s, request := .square a verify } = do
      let x ← readOperand a
      return .product (x * x) s.tuning.threshold := by
  simp only [ofInvocation, ofProduct_eq verify (Integer.value_square _ _)]
  rfl

theorem agrees_ofInvocation (i : Invocation) : Agrees (ofInvocation i) := by
  obtain ⟨s, request⟩ := i
  cases request with
  | help => exact nofun
  | version => exact nofun
  | completion shell => exact nofun
  | mul a b verify =>
      rw [ofInvocation_mul]
      exact (agrees_readOperand a).bind fun _ => (agrees_readOperand b).bind fun _ => nofun
  | square a verify =>
      rw [ofInvocation_square]
      exact (agrees_readOperand a).bind fun _ => nofun
  | egcd a b width =>
      refine (agrees_readOperand a).bind fun _ => (agrees_readOperand b).bind fun _ => ?_
      refine (agrees_fitOperand width _).bind fun _ => (agrees_fitOperand width _).bind fun _ => ?_
      exact (agrees_mapError _).bind fun _ => nofun
  | inverse a modulus =>
      refine (agrees_readOperand a).bind fun _ => (agrees_fitOperand .w64 _).bind fun _ => ?_
      refine (agrees_readOperand modulus).bind fun _ => (agrees_fitOperand .w64 _).bind fun _ => ?_
      exact (agrees_mapError _).bind fun _ => nofun

end Answer

namespace LogEvent

variable {computed : Integer.Traced} {reported : List Event} {value : Int}

/-- Of the log of a product, the debug level keeps what tells of its operands and of its result. -/
theorem filter_ofProduct (hevents : computed.events.filter (·.level = .debug) = reported)
    (hvalue : computed.value = value) :
    (ofProduct computed).filter (·.level = .debug) =
      reported.map step ++ [.computed (binaryLength value.natAbs)] := by
  rw [ofProduct, List.filter_append, List.filter_map, hvalue, ← hevents]
  rfl

end LogEvent

namespace Invocation

variable {x y : Int} {a b : String} (s : Settings) (verify : Bool)

theorem log_mul (ha : Numeral.parse? a = some x) (hb : Numeral.parse? b = some y) :
    log { settings := s, request := .mul a b verify } =
      if s.verbose then
        (if x = 0 ∨ y = 0 then []
          else [.multiply (binaryLength x.natAbs) (binaryLength y.natAbs) s.tuning.threshold]).map
            .step ++ [.computed (binaryLength (x * y).natAbs)]
      else [] := by
  simp only [log, events, readOperand_of_some ha, readOperand_of_some hb]
  rw [LogEvent.filter_ofProduct (Integer.debugEvents_multiply _ x y) (Integer.value_multiply _ x y)]

theorem log_square (ha : Numeral.parse? a = some x) :
    log { settings := s, request := .square a verify } =
      if s.verbose then
        (if x = 0 then [] else [.square (binaryLength x.natAbs) s.tuning.threshold]).map
          .step ++ [.computed (binaryLength (x * x).natAbs)]
      else [] := by
  simp only [log, events, readOperand_of_some ha]
  rw [LogEvent.filter_ofProduct (Integer.debugEvents_square _ x) (Integer.value_square _ x)]

theorem log_mul_failed (h : Numeral.parse? a = none ∨ Numeral.parse? b = none) :
    log { settings := s, request := .mul a b verify } = [] := by
  rcases h with h | h
  · simp [log, events, readOperand_of_none h]
  · cases ha : readOperand a <;> simp [log, events, readOperand_of_none h, ha]

theorem log_square_failed (h : Numeral.parse? a = none) :
    log { settings := s, request := .square a verify } = [] := by
  simp [log, events, readOperand_of_none h]

end Invocation

/-- A run that ends in an integer. Where it is to be quiet, it prints nothing else; where it is to
be verbose, it logs the events reported for the product and the bits of the integer. No levels of
the log being set by a variable, the diagnostics hold nothing but that log. -/
structure Prints (s : Settings) (value : Int) (reported : List Event) (e : Ending) : Prop where
  exitStatus_eq : e.exitStatus = 0
  output_eq : s.quiet = true → ∀ texts elapsed, e.output texts elapsed = toString value ++ "\n"
  log_eq : e.log =
    if s.verbose then reported.map .step ++ [.computed (binaryLength value.natAbs)] else []
  diagnostics_eq : ∀ texts, e.diagnostics texts = String.join (e.log.mapIdx texts.line)

namespace Ending

variable {i : Invocation} {log : List LogEvent}

theorem ofWords_eq {read : Reader} {env : Environment} {words : List String}
    (h : read env words = .ok i) : ofWords read env words = ofInvocation i := by
  rw [ofWords, h]

theorem ofInvocation_ok {a : Answer} (h : Answer.ofInvocation i = .ok a) (hlog : i.log = log) :
    ofInvocation i = .answered i.settings a log := by
  rw [ofInvocation, h, hlog]

theorem ofInvocation_error {e : Failure} (h : Answer.ofInvocation i = .error e)
    (hlog : i.log = log) : ofInvocation i = .failed e log := by
  rw [ofInvocation, h, hlog]

theorem prints_product (s : Settings) (value : Int) (threshold : Nat) (reported : List Event) :
    Prints s value reported
      (.answered s (.product value threshold)
        (if s.verbose then reported.map .step ++ [.computed (binaryLength value.natAbs)] else []))
    where
  exitStatus_eq := rfl
  output_eq hquiet texts elapsed := by
    change Answer.render s elapsed (.product value threshold) = _
    rw [Answer.render, if_pos hquiet, Digits.decimalText_eq_toString]
  log_eq := rfl
  diagnostics_eq _ := String.append_empty

theorem exitStatus_ofInvocation_ne_three (i : Invocation) : (ofInvocation i).exitStatus ≠ 3 := by
  cases h : Answer.ofInvocation i with
  | error e =>
      rw [ofInvocation_error h rfl]
      intro hstatus
      rw [Failure.exitStatus_eq_three_iff.mp hstatus] at h
      exact Answer.agrees_ofInvocation i h
  | ok a =>
      rw [ofInvocation_ok h rfl]
      exact nofun

theorem exitStatus_ne_three (read : Reader) (env : Environment) (words : List String) :
    (ofWords read env words).exitStatus ≠ 3 := by
  cases h : read env words with
  | error e =>
      rw [ofWords, h]
      exact nofun
  | ok i =>
      rw [ofWords_eq h]
      exact exitStatus_ofInvocation_ne_three i

section Products

variable {x y : Int} {a b : String} (s : Settings) (verify : Bool)

theorem prints_mul (ha : Numeral.parse? a = some x) (hb : Numeral.parse? b = some y) :
    Prints s (x * y)
      (if x = 0 ∨ y = 0 then []
        else [.multiply (binaryLength x.natAbs) (binaryLength y.natAbs) s.tuning.threshold])
      (ofInvocation { settings := s, request := .mul a b verify }) := by
  have hanswer : Answer.ofInvocation { settings := s, request := .mul a b verify } =
      .ok (.product (x * y) s.tuning.threshold) := by
    rw [Answer.ofInvocation_mul, readOperand_of_some ha, readOperand_of_some hb]
    rfl
  rw [ofInvocation_ok hanswer (Invocation.log_mul s verify ha hb)]
  exact prints_product s (x * y) _ _

theorem ofInvocation_mul_failed_left (ha : Numeral.parse? a = none) (b : String) :
    ofInvocation { settings := s, request := .mul a b verify } = .failed (.parse a) := by
  apply ofInvocation_error ?_ (Invocation.log_mul_failed s verify (.inl ha))
  rw [Answer.ofInvocation_mul, readOperand_of_none ha]
  rfl

theorem ofInvocation_mul_failed_right (ha : Numeral.parse? a = some x)
    (hb : Numeral.parse? b = none) :
    ofInvocation { settings := s, request := .mul a b verify } = .failed (.parse b) := by
  apply ofInvocation_error ?_ (Invocation.log_mul_failed s verify (.inr hb))
  rw [Answer.ofInvocation_mul, readOperand_of_some ha, readOperand_of_none hb]
  rfl

theorem prints_square (ha : Numeral.parse? a = some x) :
    Prints s (x * x)
      (if x = 0 then [] else [.square (binaryLength x.natAbs) s.tuning.threshold])
      (ofInvocation { settings := s, request := .square a verify }) := by
  have hanswer : Answer.ofInvocation { settings := s, request := .square a verify } =
      .ok (.product (x * x) s.tuning.threshold) := by
    rw [Answer.ofInvocation_square, readOperand_of_some ha]
    rfl
  rw [ofInvocation_ok hanswer (Invocation.log_square s verify ha)]
  exact prints_product s (x * x) _ _

theorem ofInvocation_square_failed (ha : Numeral.parse? a = none) :
    ofInvocation { settings := s, request := .square a verify } = .failed (.parse a) := by
  apply ofInvocation_error ?_ (Invocation.log_square_failed s verify ha)
  rw [Answer.ofInvocation_square, readOperand_of_none ha]
  rfl

end Products

/-- Products by any reader that delivers what is given, as the one of this library does; all
settings below the largest machine word can be given, by flags and by the environment. Whatever the
settings and whether or not it is checked, a product ends in the exact one where both operands are
integers, and fails for the first operand that is none; so does a square. No run at all ends with
the status of a mismatch. -/
theorem products_answered :
    Delivers Invocation.ofWords ∧
    (∀ s verify a b, s.threshold < 2 ^ 64 → s.parallel < 2 ^ 64 →
      Given {} .mul s verify [a, b]
        ("mul" :: ["--threshold", toString s.threshold] ++
          (["--parallel-threshold", toString s.parallel] ++
            (switches s verify ++ ["--", a, b]))) ∧
      Given { threshold := some (toString s.threshold), parallel := some (toString s.parallel) }
        .square s verify [a] ("square" :: (switches s verify ++ ["--", a]))) ∧
    ∀ read, Delivers read → ∀ env words,
      (ofWords read env words).exitStatus ≠ 3 ∧
      (∀ s verify a b, Given env .mul s verify [a, b] words →
        (∀ x y, Numeral.parse? a = some x → Numeral.parse? b = some y →
          Prints s (x * y)
            (if x = 0 ∨ y = 0 then []
              else [.multiply (binaryLength x.natAbs) (binaryLength y.natAbs) s.tuning.threshold])
            (ofWords read env words)) ∧
        (Numeral.parse? a = none → ofWords read env words = .failed (.parse a)) ∧
        (∀ x, Numeral.parse? a = some x → Numeral.parse? b = none →
          ofWords read env words = .failed (.parse b))) ∧
      ∀ s verify a, Given env .square s verify [a] words →
        (∀ x, Numeral.parse? a = some x →
          Prints s (x * x)
            (if x = 0 then [] else [.square (binaryLength x.natAbs) s.tuning.threshold])
            (ofWords read env words)) ∧
        (Numeral.parse? a = none → ofWords read env words = .failed (.parse a)) := by
  refine ⟨delivers_ofWords, fun s verify a b hthreshold hparallel =>
    ⟨given_flags (.inl rfl) hthreshold hparallel rfl,
      given_variables (.inr rfl) hthreshold hparallel rfl⟩, ?_⟩
  intro read hread env words
  refine ⟨exitStatus_ne_three read env words, ?_, ?_⟩
  · intro s verify a b hgiven
    rw [ofWords_eq (hread.mul hgiven)]
    exact ⟨fun x y ha hb => prints_mul s verify ha hb,
      fun ha => ofInvocation_mul_failed_left s verify ha b,
      fun x ha hb => ofInvocation_mul_failed_right s verify ha hb⟩
  · intro s verify a hgiven
    rw [ofWords_eq (hread.square hgiven)]
    exact ⟨fun x ha => prints_square s verify ha,
      fun ha => ofInvocation_square_failed s verify ha⟩

/-- Flags before the subcommand and behind it, a variable, and numerals of both kinds. -/
theorem products_answered_quiet :
    Prints { threshold := 600, parallel := 7, quiet := true, verbose := true } (-310)
      [.multiply 5 4 600]
      (ofWords Invocation.ofWords { threshold := some "600" }
        ["-qv", "mul", "--verify", "-0x1F", "--parallel-threshold=7", "1_0"]) ∧
    (ofWords Invocation.ofWords { threshold := some "600" }
        ["-qv", "mul", "--verify", "-0x1F", "--parallel-threshold=7", "1_0"]).log =
      [.step (.multiply 5 4 600), .computed 9] ∧
    ofWords Invocation.ofWords {} ["square", "--threshold", "0", "12a"] =
      .failed (.parse "12a") := by
  have hsize : ∀ {text : String} {n : Nat}, size? text = some n → SizeText text n :=
    size?_eq_some_iff.mp
  have hbefore : Fills .program {} (["-qv"] ++ []) { quiet := true, verbose := true } :=
    .cons (.both rfl rfl (by decide)) .nil
  have hjoined : Valued .parallel "7" ["--parallel-threshold=7"] := .joined
  have hbehind : Fills (.within .mul) {}
      (["--verify"] ++ (["-0x1F"] ++ (["--parallel-threshold=7"] ++ (["1_0"] ++ []))))
      { verify := true, parallel := some 7, operands := ["-0x1F", "1_0"] } := by
    refine .cons (.verify (.inl rfl) rfl) (.cons (.operand (by decide) ?_)
      (.cons (.parallel rfl (hsize (by decide)) hjoined) (.cons (.operand (by decide) ?_) .nil)))
    · exact .inr ⟨'0', _, rfl, by decide⟩
    · exact .inl (by decide)
  have hgiven : Given { threshold := some "600" } .mul _ true ["-0x1F", "1_0"] _ :=
    .line (t := some 600) (p := none) hbefore hbehind (.inl ⟨rfl, rfl⟩) rfl
      (fun _ => .size (hsize (by decide))) fun _ => .unset
  have hbehindSquare : Fills (.within .square) {} (["--threshold", "0"] ++ (["12a"] ++ []))
      { threshold := some 0, operands := ["12a"] } :=
    .cons (.threshold rfl (hsize (by decide)) .apart)
      (.cons (.operand (by decide) (.inl (by decide))) .nil)
  have hgivenSquare : Given {} .square _ false ["12a"] _ :=
    .line (t := none) (p := none) .nil hbehindSquare (.inl ⟨rfl, rfl⟩) rfl (fun _ => .unset)
      fun _ => .unset
  have ha : Numeral.parse? "-0x1F" = some (-31) := by decide +kernel
  have hb : Numeral.parse? "1_0" = some 10 := by decide +kernel
  have hnone : Numeral.parse? "12a" = none := by decide +kernel
  obtain ⟨hdelivers, _, hanswered⟩ := products_answered
  have hprints := ((hanswered _ hdelivers _ _).2.1 _ _ _ _ hgiven).1 _ _ ha hb
  have hfailed := ((hanswered _ hdelivers _ _).2.2 _ _ _ hgivenSquare).2 hnone
  exact ⟨hprints, hprints.log_eq, hfailed⟩

end Ending

end FermatMul.CommandLine
