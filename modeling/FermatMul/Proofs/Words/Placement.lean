import FermatMul.Proofs.Words.CarryChain

/-!
Adding a vector at a word offset: what stays in the first vector and what falls off its end make up
the whole sum. So the addition is one modulo the length of the vector, a sum that fits drops
nothing, and several vectors can be added in any order.
-/

namespace FermatMul.Words

variable {a b : Words} {offset : Nat}

/-- The carry out of the top of the first vector. -/
def carryOut (a b : Words) (offset : Nat) : UInt32 :=
  let window := a.drop offset
  (ripple (window.drop b.length) (addCarry (window.take b.length) b false).2.toUInt32).2

/-- The words of the second vector that pass the end of the first. -/
def pastEnd (a b : Words) (offset : Nat) : Words :=
  b.drop (a.length - offset)

/-- Adding at the bottom: the source is cut at the end of the vector, and so is the carry. -/
theorem toNat_addBottom (a b : Words) :
    toNat ((addCarry (a.take b.length) b false).1 ++
        (ripple (a.drop b.length) (addCarry (a.take b.length) b false).2.toUInt32).1) +
        2 ^ (32 * a.length) *
          ((ripple (a.drop b.length) (addCarry (a.take b.length) b false).2.toUInt32).2.toNat +
            toNat (b.drop a.length)) =
      toNat a + toNat b := by
  have hlen : (a.take b.length).length + (a.drop b.length).length = a.length := by
    rw [← List.length_append, List.take_append_drop]
  have hvalue := toNat_addCarry_append_ripple (a.drop b.length)
    (List.length_take_le b.length a)
  rw [hlen, List.take_append_drop] at hvalue
  -- A source that passes the end meets an empty top, one that does not is not cut.
  have hcut : toNat b % 2 ^ (32 * (a.take b.length).length) +
      2 ^ (32 * a.length) * toNat (b.drop a.length) = toNat b := by
    rw [← toNat_take]
    rcases Nat.le_total b.length a.length with hlong | hlong
    · rw [List.length_take, Nat.min_eq_left hlong, List.take_length, List.drop_of_length_le hlong]
      rfl
    · rw [List.length_take, Nat.min_eq_right hlong]
      exact toNat_take_add_drop b a.length
  rw [Nat.mul_add, ← Nat.add_assoc, hvalue, Nat.add_assoc, hcut]

/-- What is left of a sum and what is dropped of it make up the whole. -/
theorem toNat_addAt_add_dropped (a b : Words) (offset : Nat) :
    toNat (addAt a b offset) + 2 ^ (32 * max a.length offset) *
        ((carryOut a b offset).toNat + toNat (pastEnd a b offset)) =
      toNat a + 2 ^ (32 * offset) * toNat b := by
  rcases Nat.le_total offset a.length with hoffset | hoffset
  · have hlen : 32 * a.length = 32 * offset + 32 * (a.drop offset).length := by
      rw [List.length_drop]
      omega
    have hbottom := toNat_addBottom (a.drop offset) b
    rw [List.length_drop] at hbottom hlen
    rw [Nat.max_eq_left hoffset, hlen, Nat.pow_add, addAt, toNat_list_append, List.length_take,
      Nat.min_eq_left hoffset, Nat.add_assoc, Nat.mul_assoc, ← Nat.mul_add]
    change _ + 2 ^ (32 * offset) * (_ + _ * (_ + toNat (b.drop (a.length - offset)))) = _
    rw [carryOut, hbottom, Nat.mul_add, ← Nat.add_assoc, toNat_take_add_drop]
  · have hempty : a.drop offset = [] := List.drop_of_length_le hoffset
    have hsame : addAt a b offset = a := by
      simp only [addAt, hempty, List.take_nil, List.drop_nil, addCarry, ripple, List.append_nil]
      exact List.take_of_length_le hoffset
    have hcarry : carryOut a b offset = 0 := by
      simp only [carryOut, hempty, List.take_nil, List.drop_nil, addCarry, ripple]
      rfl
    rw [hsame, hcarry, pastEnd, Nat.sub_eq_zero_of_le hoffset, List.drop_zero,
      Nat.max_eq_right hoffset, UInt32.toNat_zero, Nat.zero_add]

theorem toNat_addAt (a b : Words) (offset : Nat) :
    toNat (addAt a b offset) =
      (toNat a + 2 ^ (32 * offset) * toNat b) % 2 ^ (32 * a.length) := by
  have hlt := toNat_lt (addAt a b offset)
  rw [length_addAt] at hlt
  have hdropped : 2 ^ (32 * a.length) ∣ 2 ^ (32 * max a.length offset) *
      ((carryOut a b offset).toNat + toNat (pastEnd a b offset)) :=
    Dvd.dvd.mul_right (Nat.pow_dvd_pow 2 (Nat.mul_le_mul_left 32 (Nat.le_max_left ..))) _
  rw [← toNat_addAt_add_dropped, Nat.add_mod, Nat.mod_eq_zero_of_dvd hdropped, Nat.add_zero,
    Nat.mod_mod, Nat.mod_eq_of_lt hlt]

theorem toNat_addAt_of_lt
    (h : toNat a + 2 ^ (32 * offset) * toNat b < 2 ^ (32 * a.length)) :
    toNat (addAt a b offset) = toNat a + 2 ^ (32 * offset) * toNat b := by
  rw [toNat_addAt, Nat.mod_eq_of_lt h]

/-- Adding at a word offset drops nothing: no word that is not zero, and no carry. -/
structure AddsWhole (a b : Words) (offset : Nat) : Prop where
  pastEnd_eq_zero : ∀ w ∈ pastEnd a b offset, w = 0
  carryOut_eq_zero : carryOut a b offset = 0

theorem eq_zero_of_toNat_eq_zero (h : toNat a = 0) : ∀ w ∈ a, w = 0 := by
  intro w hw
  rw [eq_zeros_of_toNat_eq_zero h] at hw
  exact List.eq_of_mem_replicate hw

theorem addsWhole_of_lt
    (h : toNat a + 2 ^ (32 * offset) * toNat b < 2 ^ (32 * a.length)) :
    AddsWhole a b offset := by
  have hwhole := toNat_addAt_add_dropped a b offset
  rw [toNat_addAt_of_lt h, Nat.add_eq_left, Nat.mul_eq_zero] at hwhole
  obtain ⟨hcarry, hwords⟩ :=
    Nat.add_eq_zero_iff.mp (hwhole.resolve_left (Nat.two_pow_pos _).ne')
  exact ⟨eq_zero_of_toNat_eq_zero hwords, UInt32.toNat_inj.mp hcarry⟩

/-- Adds vectors at word offsets, in the order of the list. -/
def addAll (a : Words) (addends : List (Words × Nat)) : Words :=
  addends.foldl (fun sum addend => addAt sum addend.1 addend.2) a

/-- What the vectors of a list come to at their offsets. -/
def placedSum (addends : List (Words × Nat)) : Nat :=
  (addends.map fun addend => toNat addend.1 * 2 ^ (32 * addend.2)).sum

section Run

variable {addends addends' : List (Words × Nat)}

theorem placedSum_perm (h : addends'.Perm addends) : placedSum addends' = placedSum addends :=
  (h.map _).sum_nat

@[simp] theorem length_addAll (a : Words) (addends : List (Words × Nat)) :
    (addAll a addends).length = a.length := by
  induction addends generalizing a with
  | nil => rfl
  | cons addend addends ih => exact (ih (addAt a addend.1 addend.2)).trans (length_addAt ..)

/-- A run of additions is one addition modulo the length: remainders taken on the way are lost. -/
theorem toNat_addAll (a : Words) (addends : List (Words × Nat)) :
    toNat (addAll a addends) = (toNat a + placedSum addends) % 2 ^ (32 * a.length) := by
  induction addends generalizing a with
  | nil => exact (Nat.mod_eq_of_lt (toNat_lt a)).symm
  | cons addend addends ih =>
      have hrest := ih (addAt a addend.1 addend.2)
      rw [length_addAt, toNat_addAt, Nat.mod_add_mod, Nat.add_assoc,
        Nat.mul_comm (2 ^ (32 * addend.2))] at hrest
      exact hrest

theorem addAll_perm (h : addends'.Perm addends) (a : Words) :
    addAll a addends' = addAll a addends := by
  apply eq_of_toNat_eq
  · rw [length_addAll, length_addAll]
  · rw [toNat_addAll, toNat_addAll, placedSum_perm h]

end Run

/-- Adding a vector at any word offset keeps the length and is addition modulo the power of two at
the top, whether the vector fits, sticks out or starts past the end. So a list of vectors comes to
one sum in any order. -/
theorem additions_exact (a : Words) :
    (∀ b offset, (addAt a b offset).length = a.length ∧
      toNat (addAt a b offset) = (toNat a + toNat b * 2 ^ (32 * offset)) % 2 ^ (32 * a.length)) ∧
    ∀ addends, (addAll a addends).length = a.length ∧
      toNat (addAll a addends) = (toNat a + placedSum addends) % 2 ^ (32 * a.length) ∧
      ∀ addends' : List (Words × Nat), addends'.Perm addends →
        addAll a addends' = addAll a addends := by
  constructor
  · intro b offset
    refine ⟨length_addAt a b offset, ?_⟩
    rw [toNat_addAt, Nat.mul_comm]
  · intro addends
    exact ⟨length_addAll a addends, toNat_addAll a addends, fun addends' h => addAll_perm h a⟩

/-- A carry that runs through full words, a vector that sticks out, and one past the end. -/
theorem additions_exact_saturated :
    let a : Words := [0, 0xffffffff, 0xffffffff, 7]
    let addends : List (Words × Nat) := [([1], 1), ([0, 5, 9], 2), ([3], 4)]
    toNat (addAt a [1] 1) = 2 ^ 99 ∧ toNat (addAll a addends) = 13 * 2 ^ 96 ∧
      addends.reverse.Perm addends ∧ addAll a addends.reverse = addAll a addends := by
  intro a addends
  obtain ⟨hone, hall⟩ := additions_exact a
  obtain ⟨_, hvalue, horder⟩ := hall addends
  have hperm : addends.reverse.Perm addends := List.reverse_perm addends
  exact ⟨(hone [1] 1).2.trans (by decide), hvalue.trans (by decide), hperm, horder _ hperm⟩

end FermatMul.Words
