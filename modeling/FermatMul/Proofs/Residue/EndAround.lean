import FermatMul.Proofs.Loop
import FermatMul.Proofs.Residue.Checked
import FermatMul.Proofs.Residue.Rotation

namespace FermatMul.Residue

open FermatMul.Words

variable {half len : Nat} {a b : Words}

/-- The loop that feeds the carry out of the top back in at the bottom until none comes out. -/
abbrev FeedsBack : Nat → Words × UInt32 → Words × UInt32 → Prop :=
  Loop (fun s => s.2 ≠ 0) fun s => ripple s.1 s.2

/-- A sum that passes the top leaves at most two less than the top, so the carry that is fed back
comes to rest in the vector. -/
theorem feedsBack_addWrap (hlen : b.length = a.length) :
    FeedsBack (if toNat a + toNat b < 2 ^ (32 * a.length) then 0 else 1)
      ((addCarry a b false).1, (addCarry a b false).2.toUInt32) (addWrap a b, 0) := by
  have ha := toNat_lt a
  have hb := toNat_lt b
  rw [hlen] at hb
  have hsum := toNat_addCarry_of_length_eq hlen
  have hsumLt := toNat_lt (addCarry a b false).1
  rw [length_addCarry] at hsumLt
  simp only [addWrap]
  cases hcarry : (addCarry a b false).2 with
  | false =>
      rw [hcarry, Bool.toNat_false, Nat.mul_zero, Nat.add_zero] at hsum
      rw [if_pos (by omega)]
      exact .done (not_not.mpr rfl)
  | true =>
      rw [hcarry, Bool.toNat_true, Nat.mul_one] at hsum
      have hroom : (ripple (addCarry a b false).1 1).2 = 0 :=
        ripple_snd_of_lt (by
          rw [length_addCarry, UInt32.toNat_one]
          omega)
      have hcarry : (1 : UInt32) ≠ 0 := by decide
      rw [if_neg (by omega), if_pos rfl, ← hroom]
      exact .turn hcarry (.done (not_not.mpr hroom))

/-- A sum that passed the top has kept the carry, and one that did not is the exact one. -/
theorem addWrap_eq_zeros_iff (ha : a.length = len) (hb : b.length = len) :
    addWrap a b = zeros len ↔ a = zeros len ∧ b = zeros len := by
  have htop := Nat.two_pow_pos (32 * a.length)
  rw [eq_zeros_iff (by rw [length_addWrap, ha]), eq_zeros_iff ha, eq_zeros_iff hb,
    toNat_addWrap (hb.trans ha.symm)]
  split <;> omega

section Subtraction

theorem subWrap_eq (hhalf : half ≠ 0) (ha : a.length = 2 * half) (hb : b.length = 2 * half) :
    subWrap a b = addWrap a (b.drop half ++ b.take half) := by
  have hbits : 16 * a.length = 32 * half := by omega
  have hne : b ≠ [] := List.length_pos_iff.mp (by omega)
  rw [subWrap, hbits, rotateLeft_half hb hne]

theorem toNat_subWrap_modEq (ha : a.length = 2 * half) (hb : b.length = 2 * half) :
    toNat (subWrap a b) ≡ toNat a + toNat b * 2 ^ (32 * half) [MOD 2 ^ (64 * half) - 1] := by
  have hbits : 16 * a.length = 32 * half := by omega
  have htop : 32 * a.length = 64 * half := by omega
  have hrotated := toNat_rotateLeft_modEq b (32 * half)
  have hsum := toNat_addWrap_modEq (a := a) (b := rotateLeft b (32 * half)) (by
    rw [length_rotateLeft, ha, hb])
  rw [hb, ← ha, htop, Nat.mul_comm (2 ^ (32 * half))] at hrotated
  rw [htop] at hsum
  rw [subWrap, hbits]
  exact hsum.trans (hrotated.add_left _)

theorem length_exchanged (hb : b.length = 2 * half) :
    (b.drop half ++ b.take half).length = 2 * half := by
  rw [List.length_append, List.length_drop, List.length_take]
  omega

theorem exchanged_eq_zeros_iff (hb : b.length = 2 * half) :
    b.drop half ++ b.take half = zeros (2 * half) ↔ b = zeros (2 * half) := by
  rw [eq_zeros_iff (length_exchanged hb), eq_zeros_iff hb, toNat_list_append,
    ← toNat_take_add_drop b half]
  simp [and_comm]

theorem subWrap_eq_zeros_iff (hhalf : half ≠ 0) (ha : a.length = 2 * half)
    (hb : b.length = 2 * half) :
    subWrap a b = zeros (2 * half) ↔ a = zeros (2 * half) ∧ b = zeros (2 * half) := by
  rw [subWrap_eq hhalf ha hb, addWrap_eq_zeros_iff ha (length_exchanged hb),
    exchanged_eq_zeros_iff hb]

end Subtraction

section Complement

/-- The vector with every bit exchanged. -/
def complement (a : Words) : Words :=
  a.map (~~~ ·)

@[simp] theorem length_complement (a : Words) : (complement a).length = a.length :=
  List.length_map _

theorem toNat_complement (a : Words) :
    toNat (complement a) + toNat a + 1 = 2 ^ (32 * a.length) := by
  induction a with
  | nil => rfl
  | cons w ws ih =>
      have hw := w.toNat_lt
      have hword : (~~~w).toNat + w.toNat + 1 = 2 ^ 32 := by
        rw [UInt32.toNat_not, UInt32.size]
        omega
      change (~~~w).toNat + 2 ^ 32 * toNat (complement ws) + _ + 1 = _
      rw [toNat_cons, List.length_cons, two_pow_words_succ, ← ih]
      omega

theorem toNat_ones (n : Nat) : toNat (List.replicate n 0xffffffff) + 1 = 2 ^ (32 * n) := by
  have h := toNat_complement (zeros n)
  rwa [toNat_zeros, complement, zeros, List.map_replicate, List.length_replicate] at h

/-- Each half of a vector and that of its complement make up the same number. -/
theorem value_complement (ha : a.length = 2 * half) : value (complement a) = -value a := by
  have hlow := toNat_complement (a.take half)
  have hhigh := toNat_complement (a.drop half)
  have htake : (a.take half).length = half := by
    rw [List.length_take]
    omega
  have hdrop : (a.drop half).length = half := by
    rw [List.length_drop]
    omega
  rw [htake, complement, List.map_take] at hlow
  rw [hdrop, complement, List.map_drop] at hhigh
  rw [value, value, length_complement, half_eq ha, complement]
  omega

theorem addWrap_complement (a : Words) :
    addWrap a (complement a) = List.replicate a.length 0xffffffff := by
  have hvalue := toNat_complement a
  have hones := toNat_ones a.length
  apply eq_of_toNat_eq
  · rw [length_addWrap, List.length_replicate]
  · rw [toNat_addWrap (length_complement a), if_pos (by omega)]
    omega

end Complement

/-- Sums and differences around the end are exact: the loop ends after one turn if the sum passes
the top and at once if not, and what passes comes back as one. A difference is the sum with the
halves of the second vector exchanged. Neither is all zeros unless both vectors are, and each vector
has one of the opposite value that adds up to all ones with it. -/
theorem end_around_exact (hhalf : half ≠ 0) (ha : a.length = 2 * half) (hb : b.length = 2 * half) :
    let top := 2 ^ (64 * half)
    let total := toNat a + toNat b
    let sum := addCarry a b false
    (add a b = .ok (addWrap a b) ∧
      (∀ turns s, FeedsBack turns (sum.1, sum.2.toUInt32) s ↔
        turns = (if total < top then 0 else 1) ∧ s = (addWrap a b, 0)) ∧
      toNat (addWrap a b) = if total < top then total else total - top + 1) ∧
    (sub a b = .ok (subWrap a b) ∧ subWrap a b = addWrap a (b.drop half ++ b.take half) ∧
      toNat (subWrap a b) ≡ toNat a + toNat b * 2 ^ (32 * half) [MOD top - 1]) ∧
    ((addWrap a b = zeros (2 * half) → a = zeros (2 * half) ∧ b = zeros (2 * half)) ∧
      (subWrap a b = zeros (2 * half) → a = zeros (2 * half) ∧ b = zeros (2 * half))) ∧
    ∃ c : Words, c.length = 2 * half ∧ value c = -value a ∧
      addWrap a c = List.replicate (2 * half) 0xffffffff := by
  intro top total sum
  have hlen : b.length = a.length := hb.trans ha.symm
  have htop : 32 * a.length = 64 * half := by omega
  have hrun := feedsBack_addWrap hlen
  have hvalue := toNat_addWrap hlen
  rw [htop] at hrun hvalue
  refine ⟨⟨add_eq hhalf ha hb, fun turns s => hrun.iff_of_run, ?_⟩,
    ⟨sub_eq hhalf ha hb, subWrap_eq hhalf ha hb, toNat_subWrap_modEq ha hb⟩,
    ⟨(addWrap_eq_zeros_iff ha hb).mp, (subWrap_eq_zeros_iff hhalf ha hb).mp⟩,
    complement a, (length_complement a).trans ha, value_complement ha, ?_⟩
  · rw [hvalue]
    split
    · rfl
    · omega
  · rw [addWrap_complement, ha]

/-- A sum that passes the top of one word and one more, a difference, and a complement. -/
theorem end_around_exact_word :
    let a : Words := [7, 0xffffffff]
    let b : Words := [0xfffffffa, 0]
    (1 ≠ 0 ∧ a.length = 2 * 1 ∧ b.length = 2 * 1) ∧
      add a b = .ok [2, 0] ∧ FeedsBack 1 ([1, 0], 1) ([2, 0], 0) ∧
      sub a b = .ok (addWrap a [0, 0xfffffffa]) ∧
      toNat (subWrap a b) ≡ toNat a + toNat b * 2 ^ 32 [MOD 2 ^ 64 - 1] ∧
      addWrap a b ≠ zeros 2 ∧ subWrap a b ≠ zeros 2 ∧
      ∃ c, value c = 2 ^ 32 - 8 ∧ addWrap a c = [0xffffffff, 0xffffffff] := by
  intro a b
  obtain ⟨⟨hadd, hrun, _⟩, ⟨hsub, hexchanged, hvalue⟩, ⟨hzeroAdd, hzeroSub⟩, c, _, hopposite,
    hones⟩ := end_around_exact (a := a) (b := b) Nat.one_ne_zero rfl rfl
  rw [hexchanged] at hsub
  exact ⟨⟨by decide, rfl, rfl⟩, hadd.trans (by decide), (hrun 1 _).mpr (by decide), hsub, hvalue,
    fun h => absurd (hzeroAdd h).1 (by decide), fun h => absurd (hzeroSub h).1 (by decide),
    c, hopposite.trans (by decide), hones⟩

end FermatMul.Residue
