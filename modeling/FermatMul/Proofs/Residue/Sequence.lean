import FermatMul.Proofs.Residue.Checked

namespace FermatMul.Residue

open FermatMul.Words

variable {half : Nat} {a : Words}

/-- The other operand of an operation on the state. -/
inductive Operand where
  | vector (b : Words)
  | self
  deriving DecidableEq, Repr

namespace Operand

def words (a : Words) : Operand → Words
  | vector b => b
  | self => a

def Fits (half : Nat) : Operand → Prop
  | vector b => b.length = 2 * half
  | self => True

instance decidableFits (half : Nat) : ∀ b : Operand, Decidable (b.Fits half)
  | vector b => inferInstanceAs (Decidable (b.length = 2 * half))
  | self => inferInstanceAs (Decidable True)

def meaning (half : Nat) (x : FermatRing half) : Operand → FermatRing half
  | vector b => value b
  | self => x

/-- Operands that stand for one residue. -/
inductive Similar (half : Nat) : Operand → Operand → Prop
  | same (b : Operand) : Similar half b b
  | vector {b c : Words} (hb : b.length = 2 * half) (hc : c.length = 2 * half)
      (h : (value b : FermatRing half) = value c) : Similar half (.vector b) (.vector c)

theorem Similar.fits_iff {b c : Operand} (h : Similar half b c) : b.Fits half ↔ c.Fits half := by
  cases h with
  | same b => exact Iff.rfl
  | vector hb hc h => exact iff_of_true hb hc

theorem Similar.meaning_eq {b c : Operand} (h : Similar half b c) (x : FermatRing half) :
    b.meaning half x = c.meaning half x := by
  cases h with
  | same b => rfl
  | vector hb hc h => exact h

theorem length_words (ha : a.length = 2 * half) {b : Operand} (hb : b.Fits half) :
    (b.words a).length = 2 * half := by
  cases b with
  | vector b => exact hb
  | self => exact ha

theorem residue_words {b : Operand} (hb : b.Fits half) (a : Words) :
    residue half (b.words a) = b.meaning half (residue half a) := by
  cases b with
  | vector b => exact residue_eq_value hb
  | self => rfl

theorem length_words_ne {b : Operand} (hb : ¬ b.Fits half) (a : Words) :
    (b.words a).length ≠ 2 * half := by
  cases b with
  | vector b => exact hb
  | self => exact absurd trivial hb

end Operand

/-- A change of the caller's vector, which is checked before the first word of it is changed. -/
def inPlace (check : Words → Except Refusal Unit) (change : Words → Words) :
    ExceptT Refusal (StateM Words) Unit := do
  let a ← get
  check a
  set (change a)

def reduceInPlace : ExceptT Refusal (StateM Words) Unit :=
  inPlace (requireShape .reduce) fold

def addInPlace (b : Words) : ExceptT Refusal (StateM Words) Unit :=
  inPlace (requirePair .add · b) (addWrap · b)

def subtractInPlace (b : Words) : ExceptT Refusal (StateM Words) Unit :=
  inPlace (requirePair .sub · b) (subWrap · b)

theorem run_inPlace (check : Words → Except Refusal Unit) (change : Words → Words) (a : Words) :
    (inPlace check change).run.run a =
      match (do check a; return change a : Except Refusal Words) with
      | .ok c => (.ok (), c)
      | .error e => (.error e, a) := by
  change ExceptT.bindCont (m := StateM Words) (fun _ => set (change a)) (check a) a = _
  cases check a <;> rfl

theorem run_get_bind (f : Words → ExceptT Refusal (StateM Words) Unit) (a : Words) :
    (do f (← get)).run.run a = (f a).run.run a := rfl

theorem run_reduceInPlace (a : Words) :
    reduceInPlace.run.run a =
      match reduce a with
      | .ok c => (.ok (), c)
      | .error e => (.error e, a) := by
  rw [reduceInPlace, run_inPlace, reduce]

theorem run_addInPlace (a b : Words) :
    (addInPlace b).run.run a =
      match add a b with
      | .ok c => (.ok (), c)
      | .error e => (.error e, a) := by
  rw [addInPlace, run_inPlace, add]

theorem run_subtractInPlace (a b : Words) :
    (subtractInPlace b).run.run a =
      match sub a b with
      | .ok c => (.ok (), c)
      | .error e => (.error e, a) := by
  rw [subtractInPlace, run_inPlace, sub]

inductive Step where
  | add (b : Operand)
  | sub (b : Operand)
  | mul (b : Operand)
  | rotateLeft (bits : Nat)
  | rotateRight (bits : Nat)
  | reduce
  deriving DecidableEq, Repr

namespace Step

def apply (a : Words) : Step → Except Refusal Words
  | add b => Residue.add a (b.words a)
  | sub b => Residue.sub a (b.words a)
  | mul b => Residue.mul a (b.words a)
  | rotateLeft bits => .ok (Words.rotateLeft a bits)
  | rotateRight bits => .ok (Words.rotateRight a bits)
  | reduce => Residue.reduce a

/-- A step on the caller's vector. A product is a new vector, which replaces it. -/
def inPlace : Step → ExceptT Refusal (StateM Words) Unit
  | add b => do addInPlace (b.words (← get))
  | sub b => do subtractInPlace (b.words (← get))
  | mul b => do
      let a ← get
      let c ← Residue.mul a (b.words a)
      set c
  | rotateLeft bits => modify (Words.rotateLeft · bits)
  | rotateRight bits => modify (Words.rotateRight · bits)
  | reduce => reduceInPlace

/-- The state behind a step, accepted or refused. -/
def next (a : Words) (s : Step) : Words :=
  (s.inPlace.run.run a).2

/-- The steps in place and those that return a vector have the same refusals and the same results;
a refused step leaves the state. -/
theorem run_inPlace (a : Words) (s : Step) :
    s.inPlace.run.run a =
      match s.apply a with
      | .ok c => (.ok (), c)
      | .error e => (.error e, a) := by
  cases s with
  | add b => rw [inPlace, run_get_bind, run_addInPlace, apply]
  | sub b => rw [inPlace, run_get_bind, run_subtractInPlace, apply]
  | mul b =>
      change ExceptT.bindCont (m := StateM Words) (fun c => set c) (Residue.mul a (b.words a)) a = _
      rw [apply]
      cases Residue.mul a (b.words a) <;> rfl
  | rotateLeft bits => rfl
  | rotateRight bits => rfl
  | reduce => rw [inPlace, run_reduceInPlace, apply]

def Fits (half : Nat) : Step → Prop
  | add b | sub b | mul b => b.Fits half
  | rotateLeft _ | rotateRight _ | reduce => True

instance decidableFits (half : Nat) : ∀ s : Step, Decidable (s.Fits half)
  | add b | sub b | mul b => inferInstanceAs (Decidable (b.Fits half))
  | rotateLeft _ | rotateRight _ | reduce => inferInstanceAs (Decidable True)

/-- What a step does to the residue of the state. -/
def meaning (half : Nat) (x : FermatRing half) : Step → FermatRing half
  | add b => x + b.meaning half x
  | sub b => x - b.meaning half x
  | mul b => x * b.meaning half x
  | rotateLeft bits => ((2 : Nat) : FermatRing half) ^ bits * x
  | rotateRight bits => ((2 : Nat) : FermatRing half)⁻¹ ^ bits * x
  | reduce => x

/-- Steps that differ at most in the vector that stands for their operand. -/
inductive Similar (half : Nat) : Step → Step → Prop
  | same (s : Step) : Similar half s s
  | add {b c : Operand} (h : b.Similar half c) : Similar half (.add b) (.add c)
  | sub {b c : Operand} (h : b.Similar half c) : Similar half (.sub b) (.sub c)
  | mul {b c : Operand} (h : b.Similar half c) : Similar half (.mul b) (.mul c)

theorem apply_of_fits (hhalf : half ≠ 0) (ha : a.length = 2 * half) {s : Step}
    (hs : s.Fits half) :
    ∃ c, s.apply a = .ok c ∧ c.length = 2 * half ∧
      residue half c = s.meaning half (residue half a) := by
  cases s with
  | add b =>
      have hb := Operand.length_words ha hs
      refine ⟨_, add_eq hhalf ha hb, by rw [length_addWrap, ha], ?_⟩
      rw [residue_addWrap ha hb, Operand.residue_words hs]
      rfl
  | sub b =>
      have hb := Operand.length_words ha hs
      refine ⟨_, sub_eq hhalf ha hb, by rw [length_subWrap, ha], ?_⟩
      rw [residue_subWrap ha hb, Operand.residue_words hs]
      rfl
  | mul b =>
      have hb := Operand.length_words ha hs
      obtain ⟨hlen, hresidue⟩ := mulCanonical_fold_spec {} ha hb
      refine ⟨_, mul_eq hhalf ha hb, hlen, ?_⟩
      rw [hresidue, Operand.residue_words hs]
      rfl
  | rotateLeft bits =>
      exact ⟨_, rfl, by rw [length_rotateLeft, ha], residue_rotateLeft ha bits⟩
  | rotateRight bits =>
      exact ⟨_, rfl, by rw [length_rotateRight, ha], residue_rotateRight ha hhalf bits⟩
  | reduce => exact ⟨_, reduce_eq hhalf ha, by rw [length_fold, ha], residue_fold ha⟩

theorem apply_of_not_fits (hhalf : half ≠ 0) (ha : a.length = 2 * half) {s : Step}
    (hs : ¬ s.Fits half) : ∃ e, s.apply a = .error e ∧ e.kind = .invalidArgument := by
  cases s with
  | add b =>
      exact ⟨_, requirePair_bind_error .add hhalf ha (Operand.length_words_ne hs a) _, rfl⟩
  | sub b =>
      exact ⟨_, requirePair_bind_error .sub hhalf ha (Operand.length_words_ne hs a) _, rfl⟩
  | mul b =>
      exact ⟨_, requirePair_bind_error .mul hhalf ha (Operand.length_words_ne hs a) _, rfl⟩
  | rotateLeft bits => exact absurd trivial hs
  | rotateRight bits => exact absurd trivial hs
  | reduce => exact absurd trivial hs

theorem run_inPlace_of_ok {s : Step} {c : Words} (h : s.apply a = .ok c) :
    s.inPlace.run.run a = (.ok (), c) := by
  rw [run_inPlace, h]

theorem run_inPlace_of_error {s : Step} {e : Refusal} (h : s.apply a = .error e) :
    s.inPlace.run.run a = (.error e, a) := by
  rw [run_inPlace, h]

theorem next_eq_of_ok {s : Step} {c : Words} (h : s.apply a = .ok c) : s.next a = c := by
  rw [next, run_inPlace_of_ok h]

theorem next_eq_of_error {s : Step} {e : Refusal} (h : s.apply a = .error e) : s.next a = a := by
  rw [next, run_inPlace_of_error h]

/-- What one step keeps: the shape of the state, and its residue up to the meaning of the step. -/
theorem next_spec (hhalf : half ≠ 0) (ha : a.length = 2 * half) (s : Step) :
    (s.next a).length = 2 * half ∧
      residue half (s.next a) =
        if s.Fits half then s.meaning half (residue half a) else residue half a := by
  split
  case isTrue hs =>
    obtain ⟨c, hok, hlen, hresidue⟩ := apply_of_fits hhalf ha hs
    rw [next_eq_of_ok hok]
    exact ⟨hlen, hresidue⟩
  case isFalse hs =>
    obtain ⟨e, herror, _⟩ := apply_of_not_fits hhalf ha hs
    rw [next_eq_of_error herror]
    exact ⟨ha, rfl⟩

theorem Similar.fits_iff {s t : Step} (h : Similar half s t) : s.Fits half ↔ t.Fits half := by
  cases h with
  | same s => exact Iff.rfl
  | add h => exact h.fits_iff
  | sub h => exact h.fits_iff
  | mul h => exact h.fits_iff

theorem Similar.meaning_eq {s t : Step} (h : Similar half s t) (x : FermatRing half) :
    s.meaning half x = t.meaning half x := by
  cases h with
  | same s => rfl
  | add h => exact congrArg (x + ·) (h.meaning_eq x)
  | sub h => exact congrArg (x - ·) (h.meaning_eq x)
  | mul h => exact congrArg (x * ·) (h.meaning_eq x)

end Step

/-- The state behind a sequence of steps. -/
def run (a : Words) (steps : List Step) : Words := steps.foldl Step.next a

/-- The value of the expression that a sequence spells out; steps whose operand has another length
are left out. -/
def expression (half : Nat) (x : FermatRing half) (steps : List Step) : FermatRing half :=
  steps.foldl (fun y s => if s.Fits half then s.meaning half y else y) x

theorem run_append_singleton (a : Words) (steps : List Step) (s : Step) :
    run a (steps ++ [s]) = s.next (run a steps) := by
  rw [run, List.foldl_append]
  rfl

theorem run_spec (hhalf : half ≠ 0) (ha : a.length = 2 * half) (steps : List Step) :
    (run a steps).length = 2 * half ∧
      residue half (run a steps) = expression half (residue half a) steps := by
  induction steps generalizing a with
  | nil => exact ⟨ha, rfl⟩
  | cons s steps ih =>
      obtain ⟨hlen, hresidue⟩ := Step.next_spec hhalf ha s
      obtain ⟨hrun, hvalue⟩ := ih hlen
      rw [hresidue] at hvalue
      exact ⟨hrun, hvalue⟩

/-- Sequences that differ in where the state is reduced, and in the vectors that stand for the
operands. -/
inductive Interchangeable (half : Nat) : List Step → List Step → Prop
  | nil : Interchangeable half [] []
  | left {ss ts : List Step} (h : Interchangeable half ss ts) :
      Interchangeable half (.reduce :: ss) ts
  | right {ss ts : List Step} (h : Interchangeable half ss ts) :
      Interchangeable half ss (.reduce :: ts)
  | step {s t : Step} {ss ts : List Step} (hst : s.Similar half t)
      (h : Interchangeable half ss ts) : Interchangeable half (s :: ss) (t :: ts)

theorem expression_reduce (x : FermatRing half) (steps : List Step) :
    expression half x (.reduce :: steps) = expression half x steps := by
  rw [expression, List.foldl_cons, if_pos (show Step.reduce.Fits half from trivial)]
  rfl

theorem Interchangeable.expression_eq {ss ts : List Step} (h : Interchangeable half ss ts)
    (x : FermatRing half) : expression half x ss = expression half x ts := by
  induction h generalizing x with
  | nil => rfl
  | left _ ih =>
      rw [expression_reduce]
      exact ih x
  | right _ ih =>
      rw [expression_reduce]
      exact ih x
  | @step s t _ _ hst _ ih =>
      have hsame : (if s.Fits half then s.meaning half x else x) =
          if t.Fits half then t.meaning half x else x := by
        rw [hst.meaning_eq x]
        exact if_congr hst.fits_iff rfl rfl
      rw [expression, List.foldl_cons, hsame]
      exact ih _

/-- The residue behind a sequence is the value of its expression. A step is refused exactly for an
operand of another length, and then leaves the state. So the reduced state depends neither on where
it was reduced before nor on the vectors that stand for the residues. -/
theorem sequences_exact (hhalf : half ≠ 0) (ha : a.length = 2 * half) :
    (∀ steps, (run a steps).length = 2 * half ∧
      (value (run a steps) : ZMod (2 ^ (32 * half) + 1)) = expression half (value a) steps) ∧
    (∀ steps s,
      (s.Fits half → ∃ c, s.apply (run a steps) = .ok c ∧
        s.inPlace.run.run (run a steps) = (.ok (), c) ∧ run a (steps ++ [s]) = c) ∧
      (¬ s.Fits half → ∃ e, s.apply (run a steps) = .error e ∧ e.kind = .invalidArgument ∧
        s.inPlace.run.run (run a steps) = (.error e, run a steps) ∧
        run a (steps ++ [s]) = run a steps)) ∧
    ∀ a' steps steps', a'.length = 2 * half →
      (value a' : ZMod (2 ^ (32 * half) + 1)) = value a → Interchangeable half steps steps' →
        ∃ c, reduce (run a steps) = .ok c ∧ reduce (run a' steps') = .ok c := by
  refine ⟨?_, ?_, ?_⟩
  · intro steps
    obtain ⟨hlen, hresidue⟩ := run_spec hhalf ha steps
    rw [residue_eq_value hlen, residue_eq_value ha] at hresidue
    exact ⟨hlen, hresidue⟩
  · intro steps s
    have hlen := (run_spec hhalf ha steps).1
    constructor
    · intro hs
      obtain ⟨c, hok, _⟩ := Step.apply_of_fits hhalf hlen hs
      refine ⟨c, hok, Step.run_inPlace_of_ok hok, ?_⟩
      rw [run_append_singleton, Step.next_eq_of_ok hok]
    · intro hs
      obtain ⟨e, herror, hkind⟩ := Step.apply_of_not_fits hhalf hlen hs
      refine ⟨e, herror, hkind, Step.run_inPlace_of_error herror, ?_⟩
      rw [run_append_singleton, Step.next_eq_of_error herror]
  · intro a' steps steps' ha' hvalue h
    obtain ⟨hlen, hresidue⟩ := run_spec hhalf ha steps
    obtain ⟨hlen', hresidue'⟩ := run_spec hhalf ha' steps'
    refine ⟨_, reduce_eq hhalf hlen, ?_⟩
    rw [reduce_eq hhalf hlen', Except.ok.injEq, fold_eq_fold_iff hlen' hlen, hresidue, hresidue',
      residue_eq_value ha', residue_eq_value ha, hvalue]
    exact (h.expression_eq _).symm

theorem sequences_exact_word :
    (value (run [5, 2] [.mul .self, .add (.vector [1]), .sub (.vector [0, 1]), .rotateLeft 1]) :
      ZMod (2 ^ (32 * 1) + 1)) = 20 ∧
    ∃ c, reduce (run [5, 2] [.add (.vector [1, 0]), .reduce]) = .ok c ∧
      reduce (run [5, 2] [.reduce, .add (.vector [2, 1])]) = .ok c := by
  obtain ⟨hvalue, _, hsame⟩ := sequences_exact (a := [5, 2]) (show 1 ≠ 0 by decide) rfl
  constructor
  · exact (hvalue _).2.trans (by decide +kernel)
  · have hvector : (Step.add (.vector [1, 0])).Similar 1 (.add (.vector [2, 1])) := by
      refine .add (.vector rfl rfl ?_)
      decide +kernel
    exact hsame [5, 2] _ _ rfl rfl (.right (.step hvector (.left .nil)))

end FermatMul.Residue
