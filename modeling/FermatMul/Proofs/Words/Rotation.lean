import Mathlib.Data.Nat.ModEq
import FermatMul.Proofs.Words.BitField
import FermatMul.Words.Rotation

namespace FermatMul.Words

theorem two_pow_modEq_one (total : Nat) : 2 ^ total ≡ 1 [MOD 2 ^ total - 1] := by
  have hpos : 1 ≤ 2 ^ total := Nat.one_le_two_pow
  exact ((Nat.modEq_iff_dvd' hpos).mpr (Nat.dvd_refl _)).symm

theorem two_pow_mod_modEq (total bits : Nat) :
    2 ^ (bits % total) ≡ 2 ^ bits [MOD 2 ^ total - 1] := by
  have hturns : 2 ^ bits = 2 ^ (bits % total) * (2 ^ total) ^ (bits / total) := by
    rw [← Nat.pow_mul, ← Nat.pow_add, Nat.mod_add_div]
  rw [hturns]
  simpa using (((two_pow_modEq_one total).pow (bits / total)).mul_left (2 ^ (bits % total))).symm

/-- A number of `total` bits after all have moved up by `places`, the top ones to the bottom. -/
def turned (total places value : Nat) : Nat :=
  value / 2 ^ (total - places) + 2 ^ places * (value % 2 ^ (total - places))

theorem turned_modEq {total places : Nat} (h : places ≤ total) (value : Nat) :
    turned total places value ≡ 2 ^ places * value [MOD 2 ^ total - 1] := by
  let upper := value / 2 ^ (total - places)
  let lower := value % 2 ^ (total - places)
  have hshifted : 2 ^ places * value = 2 ^ total * upper + 2 ^ places * lower := by
    have hpow : 2 ^ total = 2 ^ places * 2 ^ (total - places) := by
      rw [← Nat.pow_add, Nat.add_sub_cancel' h]
    rw [hpow, Nat.mul_assoc, ← Nat.mul_add, Nat.div_add_mod]
  rw [hshifted]
  have hupper := (two_pow_modEq_one total).mul_right upper
  rw [Nat.one_mul] at hupper
  exact (hupper.add_right _).symm

theorem turned_turned {total i j value : Nat} (h : i + j ≤ total) (hvalue : value < 2 ^ total) :
    turned total j (turned total i value) = turned total (i + j) value := by
  obtain ⟨rest, rfl⟩ : ∃ rest, total = i + j + rest := ⟨total - (i + j), by omega⟩
  have hi : i + j + rest - i = rest + j := by omega
  have hj : i + j + rest - j = i + rest := by omega
  -- The number in three parts: the lowest one stays below both turns, the middle one passes the end
  -- with the second turn, the top one with the first.
  let low := value % 2 ^ rest
  let middle := value / 2 ^ rest % 2 ^ j
  let top := value / 2 ^ rest / 2 ^ j
  have hlow : low < 2 ^ rest := Nat.mod_lt _ (Nat.two_pow_pos rest)
  have htop : top < 2 ^ i := by
    have hsum : i + (rest + j) = i + j + rest := by omega
    change value / 2 ^ rest / 2 ^ j < 2 ^ i
    rwa [Nat.div_div_eq_div_mul, ← Nat.pow_add, Nat.div_lt_iff_lt_mul (Nat.two_pow_pos _),
      ← Nat.pow_add, hsum]
  have hfirst : turned (i + j + rest) i value = top + 2 ^ i * low + 2 ^ (i + rest) * middle := by
    rw [turned, hi, Nat.pow_add, Nat.mod_mul, ← Nat.div_div_eq_div_mul]
    change top + 2 ^ i * (low + 2 ^ rest * middle) = _
    ring
  have hbottom : top + 2 ^ i * low < 2 ^ (i + rest) := by
    calc
      top + 2 ^ i * low < 2 ^ i * (low + 1) := by
        rw [Nat.mul_succ]
        omega
      _ ≤ 2 ^ i * 2 ^ rest := Nat.mul_le_mul_left _ hlow
      _ = 2 ^ (i + rest) := (Nat.pow_add ..).symm
  have hupper : value / 2 ^ rest = middle + 2 ^ j * top := (Nat.mod_add_div ..).symm
  rw [hfirst, turned, hj, Nat.add_mul_div_left _ _ (Nat.two_pow_pos _), Nat.div_eq_of_lt hbottom,
    Nat.zero_add, Nat.add_mul_mod_self_left, Nat.mod_eq_of_lt hbottom, turned,
    Nat.add_sub_cancel_left, hupper, Nat.pow_add]
  change middle + 2 ^ j * (top + 2 ^ i * low) = middle + 2 ^ j * top + 2 ^ i * 2 ^ j * low
  ring

theorem toNat_rotateWords {a : Words} {k : Nat} (hk : k ≤ a.length) :
    toNat (rotateWords a k) = turned (32 * a.length) (32 * k) (toNat a) := by
  have hlen : (a.drop (a.length - k)).length = k := by
    rw [List.length_drop]
    omega
  have hrest : 32 * a.length - 32 * k = 32 * (a.length - k) := (Nat.mul_sub ..).symm
  rw [rotateWords, toNat_list_append, hlen, toNat_drop, toNat_take, turned, hrest]

/-- The bits that leave the top of a vector are those of its last word. -/
theorem toNat_spill_last {a : Words} {shift : Nat} (h : shift < 32) (hne : a ≠ []) :
    (spill shift (a.getLastD 0)).toNat = toNat a / 2 ^ (32 * a.length - shift) := by
  obtain ⟨rest, w, rfl⟩ : ∃ rest w, a = rest ++ [w] :=
    ⟨_, _, (List.dropLast_concat_getLast hne).symm⟩
  have hbits : 32 * (rest ++ [w]).length - shift = 32 * rest.length + (32 - shift) := by
    rw [List.length_append, List.length_singleton]
    omega
  rw [List.getLastD_concat, toNat_spill h, hbits, Nat.pow_add, ← Nat.div_div_eq_div_mul,
    toNat_list_append, Nat.add_mul_div_left _ _ (Nat.two_pow_pos _),
    Nat.div_eq_of_lt (toNat_lt rest)]
  simp

theorem toNat_shiftFrom_last {a : Words} {shift : Nat} (h : shift < 32) (hne : a ≠ []) :
    toNat (shiftFrom shift (a.getLastD 0) a) = turned (32 * a.length) shift (toNat a) := by
  have hpos : 0 < a.length := List.length_pos_iff.mpr hne
  have hlast : a.getLastD (a.getLastD 0) = a.getLastD 0 := by
    cases a with
    | nil => rfl
    | cons w ws => rw [List.getLastD_cons, List.getLastD_cons]
  have hvalue := toNat_shiftFrom h (a.getLastD 0) a
  rw [hlast, toNat_spill_last h hne] at hvalue
  have hpow : 2 ^ (32 * a.length) = 2 ^ shift * 2 ^ (32 * a.length - shift) := by
    rw [← Nat.pow_add, Nat.add_sub_cancel' (by omega)]
  have hsplit : 2 ^ shift * toNat a =
      2 ^ shift * (toNat a % 2 ^ (32 * a.length - shift)) +
        2 ^ (32 * a.length) * (toNat a / 2 ^ (32 * a.length - shift)) := by
    rw [hpow, Nat.mul_assoc, ← Nat.mul_add, Nat.mod_add_div]
  rw [turned]
  omega

/-- A rotation is exact on values: whole words first, then the bits within them. -/
theorem toNat_rotateLeft {a : Words} (hne : a ≠ []) (bits : Nat) :
    toNat (rotateLeft a bits) = turned (32 * a.length) (bits % (32 * a.length)) (toNat a) := by
  have hpos : 0 < a.length := List.length_pos_iff.mpr hne
  let places := bits % (32 * a.length)
  have hplaces : places < 32 * a.length := Nat.mod_lt _ (by omega)
  let moved := rotateWords a (places / 32)
  have hlen : moved.length = a.length := length_rotateWords ..
  have hmoved : moved ≠ [] := by
    rw [← List.length_pos_iff, hlen]
    exact hpos
  change toNat (shiftFrom (places % 32) (moved.getLastD 0) moved) = turned _ places _
  rw [toNat_shiftFrom_last (Nat.mod_lt _ (by omega)) hmoved, hlen, toNat_rotateWords (by omega),
    turned_turned (by omega) (toNat_lt a), Nat.div_add_mod]

theorem toNat_rotateLeft_modEq (a : Words) (bits : Nat) :
    toNat (rotateLeft a bits) ≡ 2 ^ bits * toNat a [MOD 2 ^ (32 * a.length) - 1] := by
  rcases eq_or_ne a [] with rfl | hne
  · simp [Nat.ModEq]
  · have hpos : 0 < a.length := List.length_pos_iff.mpr hne
    have hplaces : bits % (32 * a.length) < 32 * a.length := Nat.mod_lt _ (by omega)
    rw [toNat_rotateLeft hne]
    exact (turned_modEq hplaces.le _).trans ((two_pow_mod_modEq _ bits).mul_right _)

theorem wordAt_rotateWords {a : Words} {m j : Nat} (hm : m ≤ a.length) (hj : j < a.length) :
    wordAt (rotateWords a m) j = wordAt a ((j + (a.length - m)) % a.length) := by
  rw [wordAt, wordAt, rotateWords]
  rcases Nat.lt_or_ge j m with hlt | hge
  · rw [List.getElem?_append_left (by rw [List.length_drop]; omega), List.getElem?_drop,
      Nat.mod_eq_of_lt (by omega), Nat.add_comm]
  · have hturn : j + (a.length - m) = j - m + a.length := by omega
    rw [List.getElem?_append_right (by rw [List.length_drop]; omega), List.length_drop,
      List.getElem?_take_of_lt (by omega), hturn, Nat.add_mod_right, Nat.mod_eq_of_lt (by omega)]
    congr 2
    omega

theorem wordAt_shiftFrom {shift j : Nat} {a : Words} (hj : j < a.length) (below : UInt32) :
    wordAt (shiftFrom shift below a) j =
      (wordAt a j <<< UInt32.ofNat shift |||
        spill shift (if j = 0 then below else wordAt a (j - 1))) := by
  induction a generalizing below j with
  | nil => simp at hj
  | cons w ws ih =>
      cases j with
      | zero => rfl
      | succ j =>
          have hrest := ih (Nat.lt_of_succ_lt_succ hj) w
          cases j with
          | zero => exact hrest
          | succ j => exact hrest

/-- The word below one, around the end of the vector. -/
theorem wordAt_rotateWords_below {a : Words} {m j : Nat} (hm : m ≤ a.length) (hj : j < a.length) :
    (if j = 0 then (rotateWords a m).getLastD 0 else wordAt (rotateWords a m) (j - 1)) =
      wordAt a (((j + (a.length - m)) % a.length + (a.length - 1)) % a.length) := by
  have hback : (j + (a.length - 1)) % a.length < a.length := Nat.mod_lt _ (by omega)
  have hlast : (rotateWords a m).getLastD 0 = wordAt (rotateWords a m) (a.length - 1) := by
    rw [List.getLastD_eq_getLast?, List.getLast?_eq_getElem?, length_rotateWords]
    rfl
  have hbelow :
      (if j = 0 then (rotateWords a m).getLastD 0 else wordAt (rotateWords a m) (j - 1)) =
        wordAt (rotateWords a m) ((j + (a.length - 1)) % a.length) := by
    split
    case isTrue hzero =>
      rw [hlast, hzero, Nat.zero_add, Nat.mod_eq_of_lt (by omega)]
    case isFalse hne =>
      have hturn : j + (a.length - 1) = j - 1 + a.length := by omega
      rw [hturn, Nat.add_mod_right, Nat.mod_eq_of_lt (by omega)]
  rw [hbelow, wordAt_rotateWords hm hback, Nat.mod_add_mod, Nat.mod_add_mod, Nat.add_right_comm]

/-- Every word of a rotated vector is made of one word or of two neighbours, which are found by
counting back around the end. -/
theorem rotateLeft_eq_map (a : Words) (bits : Nat) :
    let places := bits % (32 * a.length)
    let shift := places % 32
    rotateLeft a bits =
      (List.range a.length).map fun j =>
        let source := (j + a.length - places / 32) % a.length
        let below := (source + a.length - 1) % a.length
        if shift = 0 then wordAt a source
        else wordAt a source <<< UInt32.ofNat shift |||
          wordAt a below >>> UInt32.ofNat (32 - shift) := by
  intro places shift
  apply List.ext_getElem
  · simp
  · intro j hj _
    rw [length_rotateLeft] at hj
    have hm : places / 32 ≤ a.length := by
      have hlt : places < 32 * a.length := Nat.mod_lt _ (by omega)
      omega
    have hsource : j + a.length - places / 32 = j + (a.length - places / 32) :=
      Nat.add_sub_assoc hm j
    have hbelow : ∀ i, i + a.length - 1 = i + (a.length - 1) := fun i =>
      Nat.add_sub_assoc (by omega) i
    let moved := rotateWords a (places / 32)
    rw [List.getElem_map, List.getElem_range, ← wordAt_of_lt]
    change wordAt (shiftFrom shift (moved.getLastD 0) moved) j = _
    rw [wordAt_shiftFrom (by rwa [length_rotateWords]), wordAt_rotateWords hm hj,
      wordAt_rotateWords_below hm hj, spill]
    simp only [hsource, hbelow]
    split
    case isTrue hzero => simp [hzero]
    case isFalse hne => rfl

end FermatMul.Words
