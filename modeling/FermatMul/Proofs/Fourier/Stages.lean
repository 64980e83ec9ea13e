import Mathlib.Tactic.Ring
import FermatMul.Fourier.Basic
import FermatMul.Proofs.Loop

/-!
The transform stage by stage. A stage joins the halves of all blocks of one size, and the next one
has blocks twice as long; the recursion does the same for one block after the other.
-/

namespace FermatMul.Fourier

open FermatMul.Residue FermatMul.Words

/-- Cuts a list into blocks of one size. -/
def blocks {α : Type} (size : Nat) (xs : List α) : List (List α) :=
  if 0 < size ∧ 0 < xs.length then xs.take size :: blocks size (xs.drop size) else []
termination_by xs.length
decreasing_by
  rw [List.length_drop]
  omega

/-- Adds the second residue of a pair, turned by `bits`, to the first and takes it from there. -/
def butterfly (bits : Nat) (u l : Words) : Words × Words :=
  let turned := rotateLeft l bits
  (addWrap u turned, subWrap u turned)

/-- The pairs of the two halves of a block, with one more step of turning for each. -/
def butterflies (step : Nat) (block : List Words) : List Words :=
  let half := block.length / 2
  let pairs := ((block.take half).zip (block.drop half)).mapIdx fun j p =>
    butterfly (step * j) p.1 p.2
  pairs.map Prod.fst ++ pairs.map Prod.snd

/-- A stage with blocks of one size. -/
def stage (period size : Nat) (xs : List Words) : List Words :=
  (blocks size xs).flatMap (butterflies (period / size))

section Blocks

variable {α : Type} {size : Nat} {block rest xs : List α}

theorem blocks_nil (size : Nat) : blocks size ([] : List α) = [] := by
  rw [blocks]
  simp

theorem blocks_append (hsize : 0 < size) (h : block.length = size) (rest : List α) :
    blocks size (block ++ rest) = block :: blocks size rest := by
  rw [blocks, if_pos ⟨hsize, by rw [List.length_append]; omega⟩, List.take_left' h,
    List.drop_left' h]

/-- A list that blocks just fill is one of them and a shorter such list. -/
theorem exists_eq_append {q : Nat} (h : xs.length = size * (q + 1)) :
    ∃ block rest, xs = block ++ rest ∧ block.length = size ∧ rest.length = size * q := by
  have hsum : size * (q + 1) = size * q + size := Nat.mul_succ ..
  refine ⟨xs.take size, xs.drop size, (List.take_append_drop ..).symm, ?_, ?_⟩
  · exact List.length_take_of_le (by omega)
  · rw [List.length_drop]
    omega

end Blocks

variable {period size k q : Nat} {xs block upper lower : List Words}

theorem butterflies_append (h : upper.length = lower.length) (step : Nat) :
    butterflies step (upper ++ lower) = joinHalves step upper lower := by
  have hhalf : (upper ++ lower).length / 2 = upper.length := by
    rw [List.length_append]
    omega
  rw [butterflies, hhalf, List.take_left, List.drop_left, joinHalves]
  congr 1
  · apply List.ext_getElem
    · simp
    · simp [butterfly]
  · apply List.ext_getElem
    · simp
    · simp [butterfly]

theorem length_joinHalves (h : upper.length = lower.length) (step : Nat) :
    (joinHalves step upper lower).length = upper.length + lower.length := by
  simp [joinHalves, h]

theorem cascade_append (hupper : upper.length = 2 ^ k) (lower : List Words) :
    cascade period (k + 1) (upper ++ lower) =
      joinHalves (period / 2 ^ (k + 1)) (cascade period k upper) (cascade period k lower) := by
  rw [cascade, List.take_left' hupper, List.drop_left' hupper]

/-- A block of twice the length, by its halves. -/
theorem exists_halves (h : block.length = 2 ^ (k + 1)) :
    ∃ upper lower, block = upper ++ lower ∧ upper.length = 2 ^ k ∧ lower.length = 2 ^ k := by
  obtain ⟨upper, lower, hblock, hupper, hlower⟩ :=
    exists_eq_append (q := 1) (h.trans (Nat.pow_succ ..))
  exact ⟨upper, lower, hblock, hupper, hlower.trans (Nat.mul_one _)⟩

theorem length_cascade (h : xs.length = 2 ^ k) : (cascade period k xs).length = 2 ^ k := by
  induction k generalizing xs with
  | zero => exact h
  | succ k ih =>
      obtain ⟨upper, lower, rfl, hupper, hlower⟩ := exists_halves h
      rw [cascade_append hupper, length_joinHalves ((ih hupper).trans (ih hlower).symm), ih hupper,
        ih hlower, Nat.pow_succ, Nat.mul_two]

theorem stage_append (hsize : 0 < size) (h : block.length = size) (rest : List Words) :
    stage period size (block ++ rest) =
      butterflies (period / size) block ++ stage period size rest := by
  rw [stage, blocks_append hsize h]
  rfl

/-- The array behind the stages for blocks of up to `2 ^ k` elements: each block of `2 ^ k` has been
transformed. -/
def afterStages (period k : Nat) (xs : List Words) : List Words :=
  (blocks (2 ^ k) xs).flatMap (cascade period k)

theorem afterStages_append (h : block.length = 2 ^ k) (rest : List Words) :
    afterStages period k (block ++ rest) = cascade period k block ++ afterStages period k rest := by
  rw [afterStages, blocks_append (Nat.two_pow_pos k) h]
  rfl

theorem stage_afterStages (h : xs.length = 2 ^ (k + 1) * q) :
    stage period (2 ^ (k + 1)) (afterStages period k xs) = afterStages period (k + 1) xs := by
  -- on the blocks of the next stage, which are two of this one
  induction q generalizing xs with
  | zero =>
      obtain rfl : xs = [] := List.eq_nil_of_length_eq_zero h
      simp [afterStages, stage, blocks_nil]
  | succ q ih =>
      obtain ⟨block, rest, rfl, hblock, hrest⟩ := exists_eq_append h
      obtain ⟨upper, lower, rfl, hupper, hlower⟩ := exists_halves hblock
      have hsame : (cascade period k upper).length = (cascade period k lower).length := by
        rw [length_cascade hupper, length_cascade hlower]
      have hdone : (cascade period k upper ++ cascade period k lower).length = 2 ^ (k + 1) := by
        rw [List.length_append, length_cascade hupper, length_cascade hlower, Nat.pow_succ,
          Nat.mul_two]
      rw [afterStages_append hblock, cascade_append hupper, List.append_assoc,
        afterStages_append hupper, afterStages_append hlower, ← List.append_assoc,
        stage_append (Nat.two_pow_pos _) hdone, butterflies_append hsame, ih hrest]

theorem afterStages_zero (period : Nat) (xs : List Words) : afterStages period 0 xs = xs := by
  induction xs with
  | nil => simp [afterStages, blocks_nil]
  | cons x xs ih =>
      have h : afterStages period 0 ([x] ++ xs) = [x] ++ afterStages period 0 xs :=
        afterStages_append rfl xs
      rw [ih] at h
      exact h

theorem afterStages_eq_cascade (h : xs.length = 2 ^ k) :
    afterStages period k xs = cascade period k xs := by
  have hone : afterStages period k (xs ++ []) = _ := afterStages_append h []
  rw [List.append_nil] at hone
  rw [hone, afterStages, blocks_nil]
  exact List.append_nil _

/-- The loop over the block sizes, which double as long as a block fits. -/
abbrev Stages (period len : Nat) : Nat → Nat × List Words → Nat × List Words → Prop :=
  Loop (fun s => s.1 ≤ len) fun s => (s.1 * 2, stage period s.1 s.2)

theorem stages_afterStages (hxs : xs.length = 2 ^ (k + q)) :
    Stages period (2 ^ (k + q)) q (2 ^ (k + 1), afterStages period k xs)
      (2 ^ (k + q + 1), afterStages period (k + q) xs) := by
  induction q generalizing k with
  | zero => exact .done (Nat.not_le.mpr (Nat.pow_lt_pow_right (by decide) (Nat.lt_succ_self k)))
  | succ q ih =>
      have hnext : k + (q + 1) = k + 1 + q := by omega
      have hlen : xs.length = 2 ^ (k + 1) * 2 ^ q := by rw [hxs, hnext, Nat.pow_add]
      rw [hnext] at hxs ⊢
      refine .turn (Nat.pow_le_pow_right (by decide) (by omega)) ?_
      rw [stage_afterStages hlen, ← Nat.pow_succ]
      exact ih hxs

theorem stages_cascade (period : Nat) (h : xs.length = 2 ^ k) :
    Stages period (2 ^ k) k (2, xs) (2 * 2 ^ k, cascade period k xs) := by
  have hrun : Stages period (2 ^ (0 + k)) k (2 ^ (0 + 1), afterStages period 0 xs) _ :=
    stages_afterStages (by rwa [Nat.zero_add])
  rw [afterStages_zero, Nat.zero_add, afterStages_eq_cascade h] at hrun
  rwa [← Nat.pow_succ']

/-- The transform is what the loop over the block sizes, from two up to the whole array, makes of
the permuted array. -/
theorem stages_cyclic (p : Plan) (h : xs.length = p.length) :
    Stages (32 * p.residueWords) p.length p.logLength
      (2, (BitReversal.permute xs.toArray).toList) (2 * p.length, cyclic p xs) := by
  apply stages_cascade
  rw [Array.length_toList, BitReversal.size_permute, List.size_toArray, h, Plan.length]

end FermatMul.Fourier
