import FermatMul.Proofs.Plan.Sizes

namespace FermatMul.Plan

open Finset
open FermatMul.Fourier FermatMul.Radix FermatMul.Residue FermatMul.Words

variable {p : Plan} {x y packed : Words} {i : Nat}

theorem toNat_fromBlock (hn : 6 ≤ p.n) (x : Words) (i : Nat) :
    toNat (p.fromBlock x i) = toNat x / (2 ^ p.blockBits) ^ i := by
  rw [fromBlock, toNat_drop, two_pow_offset hn]

theorem shaped_blocks (hn : 6 ≤ p.n) (x : Words) :
    Shaped p.ringWords p.length (p.blocks x) where
  length_eq := length_blocks p x
  width_eq a ha := by
    obtain ⟨i, _, rfl⟩ := List.mem_map.mp ha
    have htake := List.length_take_le p.blockWords (p.fromBlock x i)
    have hring := ringWords_eq_two_mul hn
    rw [length_padTo, residueWords]
    omega

theorem residueAt_blocks (hn : 6 ≤ p.n) (x : Words) (hi : i < p.length) :
    residueAt p.ringWords (p.blocks x) i =
      (digit p.blockBits (toNat x) i : FermatRing p.ringWords) := by
  have hblock : (p.blocks x)[i]? =
      some (padTo p.residueWords ((p.fromBlock x i).take p.blockWords)) := by
    rw [blocks, List.getElem?_map, List.getElem?_range hi]
    rfl
  rw [residueAt_eq hblock, residue, toNat_padTo, toNat_take, toNat_fromBlock hn,
    thirtyTwo_mul_blockWords hn, digit]

def lowBits (p : Plan) (value i : Nat) : Nat :=
  digit p.blockBits value i % 2 ^ p.dyadicBits

theorem lowBits_lt (p : Plan) (value i : Nat) : p.lowBits value i < 2 ^ p.dyadicBits :=
  Nat.mod_lt _ (Nat.two_pow_pos _)

theorem lowBits_lt_slot (p : Plan) (value i : Nat) : p.lowBits value i < 2 ^ p.slotBits :=
  Nat.lt_of_lt_of_le (p.lowBits_lt value i)
    (Nat.pow_le_pow_right (by omega) p.dyadicBits_le_slotBits)

theorem toNat_fromBlock_mod (hn : 6 ≤ p.n) (x : Words) (i : Nat) :
    toNat (p.fromBlock x i) % 2 ^ p.dyadicBits = p.lowBits (toNat x) i := by
  rw [toNat_fromBlock hn, lowBits, digit,
    Nat.mod_mod_of_dvd _ (Nat.pow_dvd_pow 2 (dyadicBits_le_blockBits hn))]

/-- Writing one field after the other adds them up: each one lies above all the earlier ones. -/
theorem toNat_foldl_append (hn : 6 ≤ p.n) (x : Words) (len count : Nat) :
    toNat ((List.range count).foldl
        (fun packed i => append packed (i * p.slotBits) (p.fromBlock x i) p.dyadicBits)
        (zeros len)) =
      ∑ i ∈ range count, p.lowBits (toNat x) i * (2 ^ p.slotBits) ^ i := by
  induction count with
  | zero => simp
  | succ count ih =>
      have hbelow : ∑ i ∈ range count, p.lowBits (toNat x) i * (2 ^ p.slotBits) ^ i <
          2 ^ (count * p.slotBits) := by
        rw [Nat.mul_comm, Nat.pow_mul]
        exact sum_fields_lt fun i _ => p.lowBits_lt_slot (toNat x) i
      have hdisjoint := Nat.two_pow_add_eq_or_of_lt hbelow (p.lowBits (toNat x) count)
      rw [List.range_succ, List.foldl_append, List.foldl_cons, List.foldl_nil, toNat_append, ih,
        toNat_fromBlock_mod hn, Nat.or_comm, ← hdisjoint, sum_range_succ, Nat.add_comm,
        Nat.mul_comm (2 ^ _), Nat.mul_comm count, Nat.pow_mul]

theorem toNat_pack (h : Fits p x.length) :
    toNat (p.pack x) = ∑ i ∈ range p.length, p.lowBits (toNat x) i * (2 ^ p.slotBits) ^ i := by
  rw [pack, toNat_foldl_append h.six_le]
  apply sum_subset (range_mono h.blockCount_le)
  intro i _ hi
  have hcount : p.blockCount x.length ≤ i := by simpa using hi
  rw [lowBits, digit_eq_zero (toNat_lt_of_blockCount_le h.six_le hcount), Nat.zero_mod,
    Nat.zero_mul]

theorem diagonal_lowBits_lt (p : Plan) (a b i : Nat) :
    diagonal p.length (p.lowBits a) (p.lowBits b) i < 2 ^ p.slotBits :=
  (diagonal_le_two_pow (p.lowBits_lt a) (p.lowBits_lt b) i).trans_lt p.two_pow_lt_slot

theorem Fits.lowBits_eq_zero (h : Fits p x.length) {i : Nat} (hi : p.halfLength ≤ i) :
    p.lowBits (toNat x) i = 0 := by
  rw [lowBits, h.digit_eq_zero hi, Nat.zero_mod]

section PackedProduct

variable (hx : Fits p x.length) (hy : Fits p y.length)
  (hpacked : toNat packed = toNat (p.pack x) * toNat (p.pack y))

include hx hy hpacked

theorem toNat_packed :
    toNat packed = ∑ s ∈ range p.length,
      diagonal p.length (p.lowBits (toNat x)) (p.lowBits (toNat y)) s * (2 ^ p.slotBits) ^ s := by
  rw [hpacked, toNat_pack hx, toNat_pack hy, ← hx.two_mul_halfLength]
  exact sum_mul_sum_eq_sum_diagonal_of_half (fun _ => hx.lowBits_eq_zero)
    (fun _ => hy.lowBits_eq_zero) _

/-- The fields of the packed product do not carry into each other. -/
theorem digit_packed (hi : i < p.length) :
    digit p.slotBits (toNat packed) i =
      diagonal p.length (p.lowBits (toNat x)) (p.lowBits (toNat y)) i := by
  rw [toNat_packed hx hy hpacked]
  exact digit_sum_fields (fun s _ => p.diagonal_lowBits_lt _ _ s) hi

/-- Every field of the packed product has the low bits of a coefficient. -/
theorem toNat_extract_packed (hi : i < p.length) :
    toNat (extract packed (i * p.slotBits) p.dyadicBits) =
      p.coefficient (toNat x) (toNat y) i % 2 ^ p.dyadicBits := by
  rw [toNat_extract, Nat.mul_comm i, Nat.pow_mul,
    ← Nat.mod_mod_of_dvd _ (Nat.pow_dvd_pow 2 p.dyadicBits_le_slotBits)]
  change digit p.slotBits (toNat packed) i % 2 ^ p.dyadicBits = _
  rw [digit_packed hx hy hpacked hi]
  exact diagonal_mod _ _ _ _ _

end PackedProduct

end FermatMul.Plan
