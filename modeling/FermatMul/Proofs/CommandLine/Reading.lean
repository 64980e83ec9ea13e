import FermatMul.CommandLine.Ending
import FermatMul.Proofs.Text.Digits

namespace FermatMul.CommandLine

open FermatMul.Text

/-- The text of a machine word: decimal digits, with or without a plus sign. -/
def SizeText (text : String) (n : Nat) : Prop :=
  n < 2 ^ 64 ∧
    ∃ cs, Digits.Denotes .decimal cs n ∧ (text.toList = cs ∨ text.toList = '+' :: cs)

/-- A word that cannot be taken for a flag: it has no dash in front, or a digit behind the dash. -/
def Bare (w : String) : Prop :=
  w.toList.head? ≠ some '-' ∨ ∃ c cs, w.toList = '-' :: c :: cs ∧ c.isDigit = true

/-- A flag with its value, in one word or in two. -/
inductive Valued (f : Flag) (text : String) : List String → Prop
  | apart : Valued f text ["--" ++ f.long, text]
  | joined : Valued f text ["--" ++ (f.long ++ ("=" ++ text))]

/-- What words add to the level that they stand in. A flag is not given twice. -/
inductive Enters (s : Scope) : Level → List String → Level → Prop
  | quiet {l : Level} {w : String} (h : l.quiet = false) (hw : w ∈ ["-q", "--quiet"]) :
      Enters s l [w] { l with quiet := true }
  | verbose {l : Level} {w : String} (h : l.verbose = false) (hw : w ∈ ["-v", "--verbose"]) :
      Enters s l [w] { l with verbose := true }
  | both {l : Level} {w : String} (hquiet : l.quiet = false) (hverbose : l.verbose = false)
      (hw : w ∈ ["-qv", "-vq"]) : Enters s l [w] { l with quiet := true, verbose := true }
  | verify {l : Level} (hs : s = .within .mul ∨ s = .within .square) (h : l.verify = false) :
      Enters s l ["--verify"] { l with verify := true }
  | threshold {l : Level} {text : String} {n : Nat} {ws : List String} (h : l.threshold = none)
      (htext : SizeText text n) (hws : Valued .threshold text ws) :
      Enters s l ws { l with threshold := some n }
  | parallel {l : Level} {text : String} {n : Nat} {ws : List String} (h : l.parallel = none)
      (htext : SizeText text n) (hws : Valued .parallel text ws) :
      Enters s l ws { l with parallel := some n }
  | operand {l : Level} {w : String} (h : l.operands.length < s.operands) (hw : Bare w) :
      Enters s l [w] { l with operands := l.operands ++ [w] }

/-- What a row of flags and operands, in any order, makes of a level. -/
inductive Fills (s : Scope) : Level → List String → Level → Prop
  | nil {l : Level} : Fills s l [] l
  | cons {l l' l'' : Level} {ws ws' : List String} (h : Enters s l ws l')
      (rest : Fills s l' ws' l'') : Fills s l (ws ++ ws') l''

/-- A variable of the environment that is unset or a size. -/
inductive Variable : Option String → Option Nat → Prop
  | unset : Variable none none
  | size {text : String} {n : Nat} (h : SizeText text n) : Variable (some text) (some n)

/-- The command lines for a subcommand, with the settings, the check and the operands that they ask
for. Flags stand before the subcommand or behind it, where the latter have precedence, and operands
may follow two dashes. A variable stands in for a size that neither place gives, and is looked at if
one of them does not. -/
inductive Given (env : Environment) :
    Subcommand → Settings → Bool → List String → List String → Prop
  | line {c : Subcommand} {before behind tail operands : List String} {outer inner : Level}
      {t p : Option Nat} (hbefore : Fills .program {} before outer)
      (hbehind : Fills (.within c) {} behind inner)
      (htail : tail = [] ∧ operands = inner.operands ∨
        ∃ rest, tail = "--" :: rest ∧ operands = inner.operands ++ rest)
      (hcount : operands.length = c.operands)
      (hthreshold : outer.threshold = none ∨ inner.threshold = none → Variable env.threshold t)
      (hparallel : outer.parallel = none ∨ inner.parallel = none → Variable env.parallel p) :
      Given env c
        { threshold := ((inner.threshold <|> outer.threshold) <|> t).getD 0
          parallel := ((inner.parallel <|> outer.parallel) <|> p).getD 0
          quiet := outer.quiet || inner.quiet
          verbose := outer.verbose || inner.verbose }
        inner.verify operands (before ++ c.name :: (behind ++ tail))

/-- What a reader of command lines promises for products: the settings, the check and the operands
arrive as they are given. -/
structure Delivers (read : Reader) : Prop where
  mul {env : Environment} {s : Settings} {verify : Bool} {a b : String} {words : List String} :
    Given env .mul s verify [a, b] words →
      read env words = .ok { settings := s, request := .mul a b verify }
  square {env : Environment} {s : Settings} {verify : Bool} {a : String} {words : List String} :
    Given env .square s verify [a] words →
      read env words = .ok { settings := s, request := .square a verify }

theorem ok_bind {ε α β : Type} (a : α) (f : α → Except ε β) : (Except.ok a >>= f) = f a :=
  rfl

section Sizes

variable {text : String} {n : Nat}

theorem size?_eq_some_iff : size? text = some n ↔ SizeText text n := by
  have hplus : ∀ {cs}, Digits.Denotes .decimal cs n → ∀ cs', cs ≠ '+' :: cs' := by
    rintro _ hcs cs' rfl
    obtain ⟨d, hd⟩ := hcs.isDigit '+' List.mem_cons_self
    exact hd.ne rfl rfl
  rw [size?, Option.filter_eq_some_iff, Digits.toNat?_eq_some_iff, decide_eq_true_eq, SizeText,
    and_comm]
  apply and_congr_right
  rintro -
  constructor
  · intro h
    refine ⟨_, h, ?_⟩
    split
    · next cs hcs => exact .inr hcs
    · exact .inl rfl
  · rintro ⟨cs, hcs, htext | htext⟩
    · rw [htext]
      split
      · next cs' => exact absurd rfl (hplus hcs cs')
      · exact hcs
    · rw [htext]
      exact hcs

theorem SizeText.readSize_eq (h : SizeText text n) : readSize text = .ok n := by
  rw [readSize, size?_eq_some_iff.mpr h]

theorem SizeText.head?_ne (h : SizeText text n) : text.toList.head? ≠ some '-' := by
  obtain ⟨_, cs, hcs, htext | htext⟩ := h
  · rw [htext]
    intro hdash
    obtain ⟨d, hd⟩ := hcs.isDigit '-' (List.mem_of_head? hdash)
    exact hd.ne rfl rfl
  · rw [htext]
    simp

theorem sizeText_toString (h : n < 2 ^ 64) : SizeText (toString n) n := by
  refine ⟨h, _, Digits.denotes_ofNat .decimal n, .inl ?_⟩
  rw [Digits.ofNat_eq_toDigits]
  exact String.toList_ofList

end Sizes

namespace Token

theorem ofWord_of_head?_ne {w : String} (h : w.toList.head? ≠ some '-') : ofWord w = .plain := by
  rw [ofWord]
  split <;> simp_all

theorem ofWord_of_digit {w : String} {c : Char} {cs : List Char} (h : w.toList = '-' :: c :: cs)
    (hc : c.isDigit = true) : ofWord w = .short (c :: cs) := by
  have hne : c ≠ '-' := by
    rintro rfl
    exact absurd hc (by decide)
  rw [ofWord, h]
  split <;> simp_all

theorem splitValue_append {name value : List Char} (h : '=' ∉ name) :
    splitValue (name ++ '=' :: value) =
      .long (String.ofList name) (some (String.ofList value)) := by
  have hname : ∀ c ∈ name, decide (c ≠ '=') = true := fun c hc =>
    decide_eq_true (ne_of_mem_of_not_mem hc h)
  rw [splitValue, List.takeWhile_append_of_pos hname, List.dropWhile_append_of_pos hname]
  simp

theorem ofWord_valued {f : Flag} (hf : f = .threshold ∨ f = .parallel) (text : String) :
    ofWord ("--" ++ f.long) = .long f.long none ∧
      ofWord ("--" ++ (f.long ++ ("=" ++ text))) = .long f.long (some text) := by
  have hjoined : ∀ (c : Char) (cs : List Char), '=' ∉ c :: cs →
      ofWord ("--" ++ (String.ofList (c :: cs) ++ ("=" ++ text))) =
        .long (String.ofList (c :: cs)) (some text) := by
    intro c cs hname
    have hlist : ("--" ++ (String.ofList (c :: cs) ++ ("=" ++ text))).toList =
        '-' :: '-' :: (c :: cs ++ '=' :: text.toList) := by
      simp [String.toList_append]
    rw [ofWord, hlist]
    refine (splitValue_append hname).trans ?_
    rw [String.ofList_toList]
  rcases hf with rfl | rfl
  · exact ⟨by decide, hjoined 't' "hreshold".toList (by decide)⟩
  · exact ⟨by decide, hjoined 'p' "arallel-threshold".toList (by decide)⟩

end Token

namespace Scope

/-- These two switches have letters, and stand anywhere. -/
theorem ofShort?_eq_some {f : Flag} {c : Char} (hf : f = .quiet ∨ f = .verbose)
    (hc : f.short? = some c) (s : Scope) : s.ofShort? c = some f := by
  rcases hf with rfl | rfl <;> cases hc <;> cases s with
  | program => rfl
  | within c => cases c <;> rfl

theorem ofLong?_eq_some {f : Flag} (hf : f ∈ [.quiet, .verbose, .threshold, .parallel])
    (s : Scope) : s.ofLong? f.long = some f := by
  simp only [List.mem_cons, List.not_mem_nil, or_false] at hf
  rcases hf with rfl | rfl | rfl | rfl <;> cases s with
  | program => rfl
  | within c => cases c <;> rfl

theorem select?_eq_none {s : Scope} {w : String} (h : w.toList.head? = some '-') :
    s.select? w = none := by
  cases s with
  | within c => rfl
  | program =>
      have hne : ∀ {v : String}, v.toList.head? ≠ some '-' → w ≠ v := by
        rintro v hv rfl
        exact hv h
      have hnone : Subcommand.all.find? (fun c => c.name == w) = none := by
        rw [List.find?_eq_none]
        intro c _
        cases c <;> simpa using (hne (by decide)).symm
      rw [select?, if_neg (hne (by decide)), hnone]
      rfl

end Scope

namespace Level

variable {l : Level}

theorem switch_quiet (h : l.quiet = false) : l.switch .quiet = .ok { l with quiet := true } := by
  simp [switch, h, once]

theorem switch_verbose (h : l.verbose = false) :
    l.switch .verbose = .ok { l with verbose := true } := by
  simp [switch, h, once]

theorem switch_verify (h : l.verify = false) :
    l.switch .verify = .ok { l with verify := true } := by
  simp [switch, h, once]

end Level

namespace Reading

variable {s : Scope} {r r' : Reading} {l l' : Level} {f : Flag} {w text : String}
variable {ws words : List String} {n : Nat}

/-- A reading that stands for a level: the value that is still pending is counted in. -/
structure Holds (r : Reading) (l : Level) : Prop where
  settles : ∀ trailing, settle { r with trailing } = .ok { level := l, trailing }
  operands_eq : r.level.operands = l.operands

theorem holds_mk (l : Level) (trailing : Bool) : Holds { level := l, trailing } l :=
  ⟨fun _ => rfl, rfl⟩

theorem Holds.settle_eq (h : r.Holds l) :
    r.settle = .ok { level := l, trailing := r.trailing } :=
  h.settles r.trailing

theorem Holds.trail (h : r.Holds l) : Holds { r with trailing := true } l :=
  ⟨h.settles, h.operands_eq⟩

theorem Holds.isAwaiting_eq (h : r.Holds l) : r.isAwaiting = false := by
  cases hpending : r.pending with
  | awaiting f =>
      have hsettle := h.settle_eq
      rw [settle, hpending] at hsettle
      cases hsettle
  | none => rw [isAwaiting, hpending]
  | holding f value => rw [isAwaiting, hpending]

theorem Holds.switch_eq (h : r.Holds l) (hset : l.switch f = .ok l') :
    r.switch f = .ok { level := l', trailing := r.trailing } := by
  rw [switch, h.settle_eq]
  change (l.switch f >>= fun level => Except.ok (Reading.mk level .none r.trailing)) = _
  rw [hset]
  rfl

theorem Holds.long_eq (h : r.Holds l) (hvalue : f.takesValue = true)
    (hset : l.enter f text = .ok l') :
    r.long f (some text) = .ok { level := l', trailing := r.trailing } := by
  rw [long, if_pos hvalue, h.settle_eq]
  change (l.enter f text >>= fun level => Except.ok (Reading.mk level .none r.trailing)) = _
  rw [hset]
  rfl

theorem holds_holding (hset : l.enter f text = .ok l') (hkeep : l'.operands = l.operands) :
    Holds { level := l, pending := .holding f text } l' where
  settles trailing := by
    change (l.enter f text >>= fun level => Except.ok (Reading.mk level .none trailing)) = _
    rw [hset]
    rfl
  operands_eq := hkeep.symm

theorem Holds.operand_eq (h : r.Holds l) (hroom : l.operands.length < s.operands) (w : String) :
    r.operand s w =
      .ok { level := { l with operands := l.operands ++ [w] }, trailing := r.trailing } := by
  have hexpects : r.expectsOperand s = true := by
    rw [expectsOperand, h.operands_eq, decide_eq_true hroom]
  simp only [operand, if_pos hexpects, h.settle_eq]
  rfl

/-- Words that the scan of a level passes over, from one reading to another. -/
def Passes (s : Scope) (words : List String) (r r' : Reading) : Prop :=
  ∀ rest, scan s (words ++ rest) r = scan s rest r'

theorem passes_singleton (hselect : r.isAwaiting = true ∨ s.select? w = none)
    (hstep : r.step s w = .ok r') : Passes s [w] r r' := by
  intro rest
  have hnone : (if r.trailing || r.isAwaiting then none else s.select? w) = none := by
    rcases hselect with h | h <;> simp [h]
  rw [List.singleton_append, scan, hnone, hstep]
  rfl

theorem Passes.append {r'' : Reading} (h : Passes s words r r') (h' : Passes s ws r' r'') :
    Passes s (words ++ ws) r r'' := by
  intro rest
  rw [List.append_assoc, h, h']

section Words

variable (h : r.Holds l) (htrailing : r.trailing = false)

include h htrailing

theorem Holds.passes_long (hname : Token.ofWord w = .long f.long none)
    (hselect : s.select? w = none) (hflag : s.ofLong? f.long = some f)
    (hvalue : f.takesValue = false) (hset : l.switch f = .ok l') :
    Passes s [w] r { level := l' } := by
  apply passes_singleton (.inr hselect)
  simp only [step, htrailing, hname, hflag, long, hvalue, h.switch_eq hset]
  rfl

theorem Holds.passes_short {c : Char} (hletter : Token.ofWord w = .short [c])
    (hselect : s.select? w = none) (hflag : s.ofShort? c = some f) (hset : l.switch f = .ok l') :
    Passes s [w] r { level := l' } := by
  apply passes_singleton (.inr hselect)
  have hknown : [c].any (fun c => (s.ofShort? c).isNone) = false := by simp [hflag]
  simp only [step, htrailing, hletter, hknown, Bool.and_false, letters, hflag, h.switch_eq hset]
  rfl

theorem Holds.passes_letters {g : Flag} {l'' : Level} {c d : Char}
    (hletters : Token.ofWord w = .short [c, d]) (hselect : s.select? w = none)
    (hc : s.ofShort? c = some f) (hd : s.ofShort? d = some g) (hset : l.switch f = .ok l')
    (hset' : l'.switch g = .ok l'') : Passes s [w] r { level := l'' } := by
  apply passes_singleton (.inr hselect)
  have hknown : [c, d].any (fun c => (s.ofShort? c).isNone) = false := by simp [hc, hd]
  simp only [step, htrailing, hletters, hknown, Bool.and_false, letters, hc, h.switch_eq hset]
  change letters s [d] { level := l' } = _
  simp only [letters, hd, (holds_mk l' false).switch_eq hset']
  rfl

/-- A value of its own word is entered later, with the next flag or at the end. -/
theorem Holds.passes_valued (hf : f = .threshold ∨ f = .parallel)
    (hdash : text.toList.head? ≠ some '-') (hset : l.enter f text = .ok l')
    (hkeep : l'.operands = l.operands) (hwords : Valued f text words) :
    ∃ r', r'.Holds l' ∧ r'.trailing = false ∧ Passes s words r r' := by
  obtain ⟨hname, hjoined⟩ := Token.ofWord_valued hf text
  have hselect : ∀ v, s.select? ("--" ++ v) = none := fun v =>
    Scope.select?_eq_none (by simp [String.toList_append])
  have hflag : s.ofLong? f.long = some f :=
    Scope.ofLong?_eq_some (by rcases hf with rfl | rfl <;> decide) s
  have hvalue : f.takesValue = true := by rcases hf with rfl | rfl <;> rfl
  cases hwords with
  | joined =>
      refine ⟨{ level := l' }, holds_mk l' false, rfl, ?_⟩
      apply passes_singleton (.inr (hselect _))
      simp only [step, htrailing, hjoined, hflag, h.long_eq hvalue hset]
      rfl
  | apart =>
      have hfirst : Passes s ["--" ++ f.long] r { level := l, pending := .awaiting f } := by
        apply passes_singleton (.inr (hselect _))
        simp only [step, htrailing, hname, hflag, long, hvalue, h.settle_eq]
        rfl
      have hsecond : Passes s [text] { level := l, pending := .awaiting f }
          { level := l, pending := .holding f text } := by
        apply passes_singleton (.inl rfl)
        simp only [step, Token.ofWord_of_head?_ne hdash]
        rfl
      exact ⟨_, holds_holding hset hkeep, rfl, hfirst.append hsecond⟩

theorem Holds.passes_operand (hroom : l.operands.length < s.operands) (hw : Bare w) :
    Passes s [w] r { level := { l with operands := l.operands ++ [w] } } := by
  cases s with
  | program => exact absurd hroom (Nat.not_lt_zero _)
  | within c =>
      apply passes_singleton (.inr rfl)
      have hexpects : r.expectsOperand (.within c) = true := by
        rw [expectsOperand, h.operands_eq, decide_eq_true hroom]
      have hword : r.step (.within c) w = r.word (.within c) w := by
        rcases hw with hplain | ⟨d, cs, hw, hd⟩
        · simp [step, htrailing, Token.ofWord_of_head?_ne hplain]
        · have hunknown : (Scope.within c).ofShort? d = none := by
            rw [Scope.ofShort?, List.find?_eq_none]
            rintro f - hf
            have hshort : f.short? = some d := eq_of_beq hf
            cases f <;> cases hshort <;> exact absurd hd (by decide)
          simp [step, htrailing, Token.ofWord_of_digit hw hd, hexpects, hunknown]
      have hpending : r.word (.within c) w = r.operand (.within c) w := by
        have hwaits := h.isAwaiting_eq
        rw [isAwaiting] at hwaits
        rw [word]
        split
        · next f hf => simp [hf] at hwaits
        · rfl
      rw [hword, hpending, h.operand_eq hroom, htrailing]

end Words

end Reading

namespace Enters

open Reading

variable {s : Scope} {l l' : Level} {words : List String} {r : Reading}

/-- What one flag or operand does to the reading: it goes on to stand for the level behind it. -/
theorem passes (h : Enters s l words l') (hholds : r.Holds l) (htrailing : r.trailing = false) :
    ∃ r', r'.Holds l' ∧ r'.trailing = false ∧ Passes s words r r' := by
  have hquiet : s.ofShort? 'q' = some .quiet := Scope.ofShort?_eq_some (.inl rfl) rfl s
  have hverbose : s.ofShort? 'v' = some .verbose := Scope.ofShort?_eq_some (.inr rfl) rfl s
  cases h with
  | quiet hunset hw =>
      refine ⟨_, holds_mk _ false, rfl, ?_⟩
      rcases List.mem_pair.mp hw with rfl | rfl
      · exact hholds.passes_short htrailing (by decide) (Scope.select?_eq_none rfl) hquiet
          (Level.switch_quiet hunset)
      · exact hholds.passes_long htrailing (f := .quiet) (by decide) (Scope.select?_eq_none rfl)
          (Scope.ofLong?_eq_some (by decide) s) rfl (Level.switch_quiet hunset)
  | verbose hunset hw =>
      refine ⟨_, holds_mk _ false, rfl, ?_⟩
      rcases List.mem_pair.mp hw with rfl | rfl
      · exact hholds.passes_short htrailing (by decide) (Scope.select?_eq_none rfl) hverbose
          (Level.switch_verbose hunset)
      · exact hholds.passes_long htrailing (f := .verbose) (by decide) (Scope.select?_eq_none rfl)
          (Scope.ofLong?_eq_some (by decide) s) rfl (Level.switch_verbose hunset)
  | both hfirst hsecond hw =>
      refine ⟨_, holds_mk _ false, rfl, ?_⟩
      rcases List.mem_pair.mp hw with rfl | rfl
      · exact hholds.passes_letters htrailing (by decide) (Scope.select?_eq_none rfl) hquiet
          hverbose (Level.switch_quiet hfirst) (Level.switch_verbose hsecond)
      · exact hholds.passes_letters htrailing (by decide) (Scope.select?_eq_none rfl) hverbose
          hquiet (Level.switch_verbose hsecond) (Level.switch_quiet hfirst)
  | verify hs hunset =>
      refine ⟨_, holds_mk _ false, rfl, ?_⟩
      have hflag : s.ofLong? "verify" = some .verify := by rcases hs with rfl | rfl <;> rfl
      exact hholds.passes_long htrailing (f := .verify) (by decide) (Scope.select?_eq_none rfl)
        hflag rfl (Level.switch_verify hunset)
  | threshold hunset htext hwords =>
      refine hholds.passes_valued htrailing (.inl rfl) htext.head?_ne ?_ ?_ hwords
      · simp [Level.enter, hunset, once, htext.readSize_eq]
        rfl
      · rfl
  | parallel hunset htext hwords =>
      refine hholds.passes_valued htrailing (.inr rfl) htext.head?_ne ?_ ?_ hwords
      · simp [Level.enter, hunset, once, htext.readSize_eq]
        rfl
      · rfl
  | operand hroom hw =>
      exact ⟨_, holds_mk _ false, rfl, hholds.passes_operand htrailing hroom hw⟩

end Enters

namespace Fills

open Reading

variable {s : Scope} {l l' : Level} {words : List String} {r : Reading}

theorem passes (h : Fills s l words l') (hholds : r.Holds l) (htrailing : r.trailing = false) :
    ∃ r', r'.Holds l' ∧ r'.trailing = false ∧ Passes s words r r' := by
  induction h generalizing r with
  | nil => exact ⟨r, hholds, htrailing, fun _ => rfl⟩
  | cons h _ ih =>
      obtain ⟨r₁, hholds₁, htrailing₁, hpasses₁⟩ := h.passes hholds htrailing
      obtain ⟨r₂, hholds₂, htrailing₂, hpasses₂⟩ := ih hholds₁ htrailing₁
      exact ⟨r₂, hholds₂, htrailing₂, hpasses₁.append hpasses₂⟩

theorem length_operands_le (h : Fills s l words l') (hl : l.operands.length ≤ s.operands) :
    l'.operands.length ≤ s.operands := by
  induction h with
  | nil => exact hl
  | cons h _ ih =>
      apply ih
      cases h with
      | operand hroom _ =>
          rw [List.length_append]
          exact hroom
      | _ => exact hl

theorem completion_eq (h : Fills s l words l') : l'.completion = l.completion := by
  induction h with
  | nil => rfl
  | cons h _ ih => cases h <;> exact ih

end Fills

namespace Reading

variable {s : Scope} {c : Subcommand} {l : Level} {r : Reading}

/-- Behind two dashes every word is an operand. -/
theorem scan_operands (h : r.Holds l) (htrailing : r.trailing = true) {rest : List String}
    (hroom : l.operands.length + rest.length ≤ c.operands) :
    ∃ r', r'.Holds { l with operands := l.operands ++ rest } ∧
      scan (.within c) rest r = .ok (r', none) := by
  induction rest generalizing l r with
  | nil =>
      refine ⟨r, ?_, rfl⟩
      rw [List.append_nil]
      exact h
  | cons w rest ih =>
      have hlt : l.operands.length < (Scope.within c).operands := by
        simp only [List.length_cons] at hroom
        exact Nat.lt_of_lt_of_le (by omega) hroom
      obtain ⟨r', hr', hscan⟩ := ih (holds_mk { l with operands := l.operands ++ [w] } true) rfl
        (by simp only [List.length_append, List.length_cons, List.length_nil] at hroom ⊢; omega)
      refine ⟨r', ?_, ?_⟩
      · simpa using hr'
      · have hstep : r.step (.within c) w =
            .ok { level := { l with operands := l.operands ++ [w] }, trailing := true } := by
          rw [step, if_pos htrailing, h.operand_eq hlt, htrailing]
        exact (passes_singleton (.inr rfl) hstep rest).trans hscan

theorem checkVariable_eq {given t : Option Nat} {fallback : Option String}
    (h : given = none → Variable fallback t) : checkVariable given fallback = .ok () := by
  cases given with
  | some n => rfl
  | none =>
      cases h rfl with
      | unset => rfl
      | size htext =>
          rw [checkVariable, htext.readSize_eq]
          rfl

theorem Holds.finish_eq {t p : Option Nat} (h : r.Holds l) (env : Environment)
    (hcount : l.operands.length = s.operands)
    (hthreshold : l.threshold = none → Variable env.threshold t)
    (hparallel : l.parallel = none → Variable env.parallel p) :
    r.finish s env = .ok l := by
  have hfull : expectsOperand s { level := l, trailing := r.trailing } = false := by
    rw [expectsOperand, hcount]
    exact decide_eq_false (Nat.lt_irrefl _)
  simp only [finish, h.settle_eq]
  change (checkVariable l.threshold env.threshold >>= fun _ =>
    checkVariable l.parallel env.parallel >>= fun _ => _) = _
  rw [checkVariable_eq hthreshold, checkVariable_eq hparallel]
  change (if expectsOperand s { level := l, trailing := r.trailing } then _ else _) = _
  rw [hfull]
  rfl

end Reading

namespace Given

open Reading

variable {env : Environment} {c : Subcommand} {s : Settings} {verify : Bool}
variable {operands words : List String}

theorem scan_behind {behind tail : List String} {inner : Level}
    (hbehind : Fills (.within c) {} behind inner)
    (htail : tail = [] ∧ operands = inner.operands ∨
      ∃ rest, tail = "--" :: rest ∧ operands = inner.operands ++ rest)
    (hcount : operands.length = c.operands) :
    ∃ r, r.Holds { inner with operands } ∧
      scan (.within c) (behind ++ tail) {} = .ok (r, none) := by
  obtain ⟨r, hholds, htrailing, hpasses⟩ := hbehind.passes (holds_mk {} false) rfl
  rcases htail with ⟨rfl, rfl⟩ | ⟨rest, rfl, rfl⟩
  · exact ⟨r, hholds, hpasses []⟩
  · have hdashes : Passes (.within c) ["--"] r { r with trailing := true } := by
      apply passes_singleton (.inr rfl)
      simp only [step, htrailing]
      rfl
    obtain ⟨r', hholds', hscan⟩ := scan_operands hholds.trail rfl (by
      rw [List.length_append] at hcount
      exact hcount.le)
    exact ⟨r', hholds', (hpasses _).trans ((hdashes rest).trans hscan)⟩

theorem scan_program {before : List String} {outer : Level}
    (hbefore : Fills .program {} before outer) (c : Subcommand) (rest : List String) :
    ∃ r, r.Holds outer ∧
      scan .program (before ++ c.name :: rest) {} = .ok (r, some (c, rest)) := by
  obtain ⟨r, hholds, htrailing, hpasses⟩ := hbefore.passes (holds_mk {} false) rfl
  have hselect : Scope.program.select? c.name = some (.subcommand c) := by cases c <;> rfl
  have hnone : (if r.trailing || r.isAwaiting then none else Scope.program.select? c.name) =
      some (.subcommand c) := by
    rw [htrailing, hholds.isAwaiting_eq, hselect]
    rfl
  refine ⟨r, hholds, (hpasses _).trans ?_⟩
  rw [scan, hnone]

theorem sizeOf_eq {inner outer t : Option Nat} {fallback : Option String}
    (h : outer = none ∨ inner = none → Variable fallback t) :
    Invocation.sizeOf inner outer fallback = ((inner <|> outer) <|> t).getD 0 := by
  rw [Invocation.sizeOf]
  cases inner with
  | some n => rfl
  | none =>
      cases outer with
      | some n => rfl
      | none =>
          cases h (.inl rfl) with
          | unset => rfl
          | size htext =>
              change ((size? _).getD 0) = _
              rw [size?_eq_some_iff.mpr htext]
              rfl

/-- The reader of this library. -/
theorem ofWords_eq (h : Given env c s verify operands words) :
    ∃ l : Level, l.operands = operands ∧ l.verify = verify ∧
      Invocation.ofWords env words =
        .ok { settings := s, request := Invocation.requestOf c l } := by
  cases h with
  | line hbefore hbehind htail hcount hthreshold hparallel =>
      rename_i before behind tail outer inner t p
      obtain ⟨r, hholds, hbehindScan⟩ := scan_behind hbehind htail hcount
      obtain ⟨r₀, hholds₀, hprogramScan⟩ := scan_program hbefore c (behind ++ tail)
      have hcompletion := hbefore.completion_eq
      have hnone : outer.operands.length = Scope.program.operands :=
        Nat.le_zero.mp (hbefore.length_operands_le (Nat.le_refl 0))
      have hinnerEnd := hholds.finish_eq (s := .within c) env hcount
        (fun h => hthreshold (.inr h)) fun h => hparallel (.inr h)
      have houterEnd := hholds₀.finish_eq (s := .program) env hnone
        (fun h => hthreshold (.inl h)) fun h => hparallel (.inl h)
      refine ⟨{ inner with operands }, rfl, rfl, ?_⟩
      rw [← sizeOf_eq hthreshold, ← sizeOf_eq hparallel]
      have hread : Invocation.read env (before ++ c.name :: (behind ++ tail)) =
          .ok { settings := Invocation.settingsOf env outer inner
                request := Invocation.requestOf c { inner with operands } } := by
        simp only [Invocation.read, hprogramScan, Option.mapM_some, ok_bind, hbehindScan,
          hinnerEnd, houterEnd, hcompletion]
        rfl
      rw [Invocation.ofWords, hread]
      rfl

end Given

theorem delivers_ofWords : Delivers Invocation.ofWords where
  mul h := by
    obtain ⟨l, hoperands, rfl, hread⟩ := h.ofWords_eq
    rw [hread, Invocation.requestOf, hoperands]
    rfl
  square h := by
    obtain ⟨l, hoperands, rfl, hread⟩ := h.ofWords_eq
    rw [hread, Invocation.requestOf, hoperands]
    rfl

section Lines

variable {c : Subcommand} {s : Settings} {verify : Bool} {operands : List String}

/-- The words for the switches of a product. -/
def switches (s : Settings) (verify : Bool) : List String :=
  (if s.quiet then ["-q"] else []) ++
    ((if s.verbose then ["--verbose"] else []) ++ ((if verify then ["--verify"] else []) ++ []))

theorem Fills.optional {scope : Scope} {l l'' : Level} {given : Bool} {ws words : List String}
    (l' : Level) (hgiven : given = true → Enters scope l ws l') (hskipped : given = false → l' = l)
    (rest : Fills scope l' words l'') :
    Fills scope l ((if given then ws else []) ++ words) l'' := by
  cases given with
  | true => exact .cons (hgiven rfl) rest
  | false => exact hskipped rfl ▸ rest

theorem fills_switches {l : Level} (s : Settings) (verify : Bool) (hc : c = .mul ∨ c = .square)
    (hquiet : l.quiet = false) (hverbose : l.verbose = false)
    (hverify : l.verify = false) :
    Fills (.within c) l (switches s verify)
      { l with quiet := s.quiet, verbose := s.verbose, verify } := by
  have hscope : Scope.within c = .within .mul ∨ Scope.within c = .within .square :=
    hc.imp (congrArg _) (congrArg _)
  refine .optional { l with quiet := s.quiet } (fun h => ?_) (fun h => ?_)
    (.optional { l with quiet := s.quiet, verbose := s.verbose } (fun h => ?_) (fun h => ?_)
      (.optional _ (fun h => ?_) (fun h => ?_) .nil))
  · rw [h]
    exact .quiet hquiet (by decide)
  · rw [h, ← hquiet]
  · rw [h]
    exact .verbose hverbose (by decide)
  · rw [h, ← hverbose]
  · rw [h]
    exact .verify hscope hverify
  · rw [h, ← hverify]

/-- All settings can be given by flags. -/
theorem given_flags (hc : c = .mul ∨ c = .square) (hthreshold : s.threshold < 2 ^ 64)
    (hparallel : s.parallel < 2 ^ 64) (hcount : operands.length = c.operands) :
    Given {} c s verify operands
      (c.name :: ["--threshold", toString s.threshold] ++
        (["--parallel-threshold", toString s.parallel] ++
          (switches s verify ++ "--" :: operands))) := by
  have hswitches := fills_switches (l := { threshold := s.threshold, parallel := s.parallel })
    s verify hc rfl rfl rfl
  have hparallelWords := Fills.cons (.parallel (l := { threshold := s.threshold }) rfl
    (sizeText_toString hparallel) .apart) hswitches
  have hbehind := Fills.cons (.threshold (l := {}) rfl (sizeText_toString hthreshold) .apart)
    hparallelWords
  exact .line .nil hbehind (.inr ⟨operands, rfl, rfl⟩) hcount (fun _ => .unset) fun _ => .unset

/-- All settings can be given by the environment and by switches. -/
theorem given_variables (hc : c = .mul ∨ c = .square) (hthreshold : s.threshold < 2 ^ 64)
    (hparallel : s.parallel < 2 ^ 64) (hcount : operands.length = c.operands) :
    Given { threshold := some (toString s.threshold), parallel := some (toString s.parallel) }
      c s verify operands (c.name :: (switches s verify ++ "--" :: operands)) := by
  have hbehind := fills_switches (l := {}) s verify hc rfl rfl rfl
  have hthresholdVariable := Variable.size (sizeText_toString hthreshold)
  have hparallelVariable := Variable.size (sizeText_toString hparallel)
  exact .line (t := some s.threshold) (p := some s.parallel) .nil hbehind
    (.inr ⟨operands, rfl, rfl⟩) hcount (fun _ => hthresholdVariable) fun _ => hparallelVariable

end Lines

end FermatMul.CommandLine
