import FermatMul.Plan.Basic
import FermatMul.Words.Field

namespace FermatMul

open FermatMul.Words

namespace Plan

def fromBlock (p : Plan) (x : Words) (i : Nat) : Words :=
  x.drop (i * p.blockWords)

/-- The blocks of an operand, each one filled up to a coefficient, with zeros behind them. -/
def blocks (p : Plan) (x : Words) : List Words :=
  (List.range p.length).map fun i =>
    padTo p.residueWords ((p.fromBlock x i).take p.blockWords)

def packedLength (p : Plan) (len : Nat) : Nat :=
  wordsFor (p.blockCount len * p.slotBits)

/-- Writes the low bits of every block into a field of its own. -/
def pack (p : Plan) (x : Words) : Words :=
  (List.range (p.blockCount x.length)).foldl
    (fun packed i => append packed (i * p.slotBits) (p.fromBlock x i) p.dyadicBits)
    (zeros (p.packedLength x.length))

@[simp] theorem length_blocks (p : Plan) (x : Words) :
    (p.blocks x).length = p.length := by
  simp [blocks]

theorem wordsFor_mono {a b : Nat} (h : a ≤ b) : wordsFor a ≤ wordsFor b := by
  rw [wordsFor_le_iff]
  have hb := wordsFor_le_iff.mp (Nat.le_refl (wordsFor b))
  omega

@[simp] theorem length_pack (p : Plan) (x : Words) :
    (p.pack x).length = p.packedLength x.length := by
  have hkeep : ∀ is : List Nat, (∀ i ∈ is, i < p.blockCount x.length) →
      ∀ packed : Words, packed.length = p.packedLength x.length →
        (is.foldl (fun packed i =>
          append packed (i * p.slotBits) (p.fromBlock x i) p.dyadicBits) packed).length =
            p.packedLength x.length := by
    intro is
    induction is with
    | nil => intro _ packed hlen; exact hlen
    | cons i is ih =>
        intro his packed hlen
        refine ih (fun j hj => his j (List.mem_cons_of_mem _ hj)) _ ?_
        rw [length_append, hlen]
        apply Nat.max_eq_left
        apply wordsFor_mono
        have hi := his i List.mem_cons_self
        have hfield := p.dyadicBits_le_slotBits
        calc i * p.slotBits + p.dyadicBits ≤ (i + 1) * p.slotBits := by
              rw [Nat.add_mul]; omega
          _ ≤ p.blockCount x.length * p.slotBits := Nat.mul_le_mul_right _ hi
  exact hkeep _ (fun i hi => List.mem_range.mp hi) _ (length_zeros _)

end Plan

end FermatMul
