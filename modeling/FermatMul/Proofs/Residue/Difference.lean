import FermatMul.Proofs.Residue.Canonical
import FermatMul.Proofs.Words.Bits

namespace FermatMul.Residue

open FermatMul.Words

variable {a b : Words} {bits : Nat}

/-- Subtracts in the words that `bits` bits reach, wrapping at the last one. -/
def subReached (b : Words) (bits : Nat) (a : Words) : Words :=
  (subBorrow (a.take (wordsFor bits)) b false).1 ++ a.drop (wordsFor bits)

/-- Cuts the word in which the bits end. -/
def cutLast (bits : Nat) (a : Words) : Words :=
  let last := wordsFor bits - 1
  if wordsFor bits = 0 then a else a.modify last (· &&& maskBelow (bits - 32 * last))

def clearAbove (bits : Nat) (a : Words) : Words :=
  a.take (wordsFor bits) ++ zeros (a.length - wordsFor bits)

/-- The truncated difference of the caller's vector and another one, which is checked before the
first word is changed. -/
def subInPlace (b : Words) (bits : Nat) : ExceptT Refusal (StateM Words) Unit := do
  let a ← get
  if wordsFor bits ≤ a.length ∧ wordsFor bits ≤ b.length then
    modify (subReached b bits)
    modify (cutLast bits)
    modify (clearAbove bits)
  else throw (.shortOperand bits (wordsFor bits) a.length b.length)

theorem run_subInPlace (a b : Words) (bits : Nat) :
    (subInPlace b bits).run.run a =
      if wordsFor bits ≤ a.length ∧ wordsFor bits ≤ b.length then
        (.ok (), clearAbove bits (cutLast bits (subReached b bits a)))
      else (.error (.shortOperand bits (wordsFor bits) a.length b.length), a) := by
  change (if _ then _ else _ : ExceptT Refusal (StateM Words) Unit) a = _
  split <;> rfl

theorem and_maskBelow_of_le (w : UInt32) (h : 32 ≤ bits) : w &&& maskBelow bits = w := by
  rw [← UInt32.toNat_inj, toNat_and_maskBelow]
  exact Nat.mod_eq_of_lt (Nat.lt_of_lt_of_le w.toNat_lt (Nat.pow_le_pow_right (by omega) h))

/-- Of a vector that the bits just fill, only the last word holds any to be cut. -/
theorem cutLast_eq_truncate (h : a.length = wordsFor bits) : cutLast bits a = truncate bits a := by
  induction a generalizing bits with
  | nil => rw [cutLast, if_pos (by simpa using h.symm), truncate]
  | cons w ws ih =>
      have hfit : 32 * ws.length < bits ∧ bits ≤ 32 * ws.length + 32 := by
        simp only [List.length_cons, wordsFor, Limits.bitsPerWord] at h
        omega
      have hcut : cutLast bits (w :: ws) =
          (w :: ws).modify ws.length (· &&& maskBelow (bits - 32 * ws.length)) := by
        rw [cutLast, if_neg (by simp [← h]), ← h, List.length_cons, Nat.add_sub_cancel]
      rw [hcut, truncate, Limits.bitsPerWord]
      cases ws with
      | nil => rfl
      | cons v vs =>
          rw [List.length_cons] at hfit
          have hrest : (v :: vs).length = wordsFor (bits - 32) := by
            simp only [List.length_cons, wordsFor, Limits.bitsPerWord]
            omega
          have hmask : bits - 32 - 32 * vs.length = bits - 32 * (vs.length + 1) := by omega
          rw [and_maskBelow_of_le w (by omega), ← ih hrest, cutLast, if_neg (by simp [← hrest]),
            ← hrest]
          simp only [List.length_cons, Nat.add_sub_cancel, List.modify_succ_cons, hmask]

theorem take_cutLast (h : wordsFor bits ≤ a.length) :
    (cutLast bits a).take (wordsFor bits) = truncate bits (a.take (wordsFor bits)) := by
  rw [← cutLast_eq_truncate (List.length_take_of_le h), cutLast, cutLast]
  split
  · rfl
  · rw [List.take_modify]

theorem length_cutLast (bits : Nat) (a : Words) : (cutLast bits a).length = a.length := by
  rw [cutLast]
  split <;> simp

/-- The words above those that the bits reach take no part in a truncated difference. -/
theorem subLow_eq_append (ha : wordsFor bits ≤ a.length) (hb : wordsFor bits ≤ b.length) :
    subLow a b bits =
      subLow (a.take (wordsFor bits)) b bits ++ zeros (a.length - wordsFor bits) := by
  have hlen : (a.take (wordsFor bits)).length = wordsFor bits := List.length_take_of_le ha
  apply eq_of_toNat_eq
  · rw [List.length_append, length_subLow, length_subLow, hlen, length_zeros]
    omega
  · have hvalue := toNat_subLow (a := a.take (wordsFor bits)) hlen.ge hb
    have hlow : bits ≤ 32 * wordsFor bits := wordsFor_le_iff.mp (Nat.le_refl _)
    rw [((toNat_take_modEq hlow a).sub_right (toNat b : Int)).eq, ← toNat_subLow ha hb] at hvalue
    rw [toNat_list_append, toNat_zeros, Nat.mul_zero, Nat.add_zero]
    exact_mod_cast hvalue.symm

theorem stages_eq_subLow (ha : wordsFor bits ≤ a.length) (hb : wordsFor bits ≤ b.length) :
    clearAbove bits (cutLast bits (subReached b bits a)) = subLow a b bits := by
  let low := (subBorrow (a.take (wordsFor bits)) b false).1
  have hlow : low.length = wordsFor bits := by rw [length_subBorrow, List.length_take_of_le ha]
  have hlen : (subReached b bits a).length = a.length := by
    change (low ++ _).length = _
    rw [List.length_append, hlow, List.length_drop]
    omega
  have htake : (subReached b bits a).take (wordsFor bits) = low := List.take_left' hlow
  rw [clearAbove, length_cutLast, hlen, take_cutLast (hlen ▸ ha), htake, subLow_eq_append ha hb]
  rfl

theorem subTruncated_eq (ha : wordsFor bits ≤ a.length) (hb : wordsFor bits ≤ b.length) :
    subTruncated a b bits = .ok (subLow a b bits) :=
  if_pos ⟨ha, hb⟩

theorem subTruncated_eq_error (h : ¬ (wordsFor bits ≤ a.length ∧ wordsFor bits ≤ b.length)) :
    subTruncated a b bits = .error (.shortOperand bits (wordsFor bits) a.length b.length) :=
  if_neg h

theorem subTruncated_refused_iff (a b : Words) (bits : Nat) :
    (∃ e, subTruncated a b bits = .error e ∧ e.kind = .invalidArgument) ↔
      a.length < wordsFor bits ∨ b.length < wordsFor bits := by
  rw [← Nat.not_le, ← Nat.not_le, ← not_and_or]
  constructor
  · rintro ⟨e, he, _⟩ ⟨ha, hb⟩
    exact nomatch (subTruncated_eq ha hb).symm.trans he
  · intro hshort
    exact ⟨_, subTruncated_eq_error hshort, rfl⟩

/-- The vector in place and the one returned: the same refusals, and the same words otherwise. -/
theorem run_subInPlace_eq (a b : Words) (bits : Nat) :
    (subInPlace b bits).run.run a =
      match subTruncated a b bits with
      | .ok c => (.ok (), c)
      | .error e => (.error e, a) := by
  rw [run_subInPlace]
  split
  · next hfits => rw [subTruncated_eq hfits.1 hfits.2, stages_eq_subLow hfits.1 hfits.2]
  · next hshort => rw [subTruncated_eq_error hshort]

theorem toNat_subLow_lt (a b : Words) (bits : Nat) : toNat (subLow a b bits) < 2 ^ bits := by
  rw [subLow, toNat_truncate]
  exact Nat.mod_lt _ (Nat.two_pow_pos bits)

/-- A difference modulo `2 ^ bits` is refused exactly if one of the vectors has fewer words than the
bits reach, and the vector then stays. Otherwise the vector keeps its length and becomes the
difference of both values modulo `2 ^ bits`, with zeros above, whatever the two vectors hold. -/
theorem difference_exact (a b : Words) (bits : Nat) :
    let words := (bits + 31) / 32
    ((∃ e, subTruncated a b bits = .error e ∧ e.kind = .invalidArgument) ↔
      a.length < words ∨ b.length < words) ∧
    (∀ e, subTruncated a b bits = .error e → (subInPlace b bits).run.run a = (.error e, a)) ∧
    (words ≤ a.length → words ≤ b.length →
      ∃ c, subTruncated a b bits = .ok c ∧ (subInPlace b bits).run.run a = (.ok (), c) ∧
        c.length = a.length ∧ (toNat c : Int) = ((toNat a : Int) - toNat b) % 2 ^ bits ∧
        ∀ p, bits ≤ p → bit c p = false) := by
  intro words
  have hrun := run_subInPlace_eq a b bits
  refine ⟨subTruncated_refused_iff a b bits, ?_, ?_⟩
  · intro e he
    rw [hrun, he]
  · intro ha hb
    have hok : subTruncated a b bits = .ok (subLow a b bits) := subTruncated_eq ha hb
    rw [hok] at hrun
    exact ⟨_, hok, hrun, length_subLow .., toNat_subLow ha hb,
      fun p hp => bit_eq_false_of_lt (toNat_subLow_lt a b bits) hp⟩

/-- Twelve bits of vectors that hold more, and bits that one of the vectors does not reach. -/
theorem difference_exact_twelve :
    let a : Words := [3844, 0, 5]
    let b : Words := [627199739, 1091992276]
    (∃ c, subTruncated a b 12 = .ok c ∧ (subInPlace b 12).run.run a = (.ok (), c) ∧
      c.length = 3 ∧ (toNat c : Int) = 9 ∧ bit c 64 = false) ∧
    ∃ e, subTruncated a b 65 = .error e ∧ e.kind = .invalidArgument ∧
      (subInPlace b 65).run.run a = (.error e, a) := by
  intro a b
  constructor
  · obtain ⟨_, _, hfits⟩ := difference_exact a b 12
    obtain ⟨c, hc, hrun, hlen, hvalue, hzero⟩ := hfits (by decide) (by decide)
    exact ⟨c, hc, hrun, hlen, hvalue.trans (by decide), hzero 64 (by decide)⟩
  · obtain ⟨hrefused, hkept, _⟩ := difference_exact a b 65
    obtain ⟨e, he, hkind⟩ := hrefused.mpr (by decide)
    exact ⟨e, he, hkind, hkept e he⟩

end FermatMul.Residue
