import FermatMul.Proofs.Words.Bits

namespace FermatMul.Words

variable {a : Words} {source : Words} {offset bits done position count i : Nat} {w value : UInt32}

/-- Sets the bits of a word in the one at an index, which has to be in the vector. -/
def setBits? (a : Words) (i : Nat) (w : UInt32) : Option Words :=
  if i < a.length then some (a.modify i (· ||| w)) else none

/-- Sets the `count` bits of a chunk from a position on. What leaves the top of the word where the
position lies goes to the next one, which is not touched if nothing does. -/
def writeChunk? (a : Words) (position count : Nat) (value : UInt32) : Option Words := do
  let index := position / Limits.bitsPerWord
  let shift := position % Limits.bitsPerWord
  let low ← setBits? a index (value <<< UInt32.ofNat shift)
  if 0 < shift ∧ Limits.bitsPerWord < shift + count then
    setBits? low (index + 1) (value >>> UInt32.ofNat (Limits.bitsPerWord - shift))
  else some low

/-- Writes what is left of a field behind its first `done` bits. -/
def writeChunks? (offset : Nat) (source : Words) (bits done : Nat) (a : Words) : Option Words :=
  if done < bits then do
    let count := min (bits - done) Limits.bitsPerWord
    let value := wordAt source (done / Limits.bitsPerWord) &&& maskBelow count
    let c ← writeChunk? a (offset + done) count value
    writeChunks? offset source bits (done + count) c
  else some a
termination_by bits - done
decreasing_by
  simp only [Limits.bitsPerWord]
  omega

theorem setBits?_eq (hi : i < a.length) (w : UInt32) :
    ∃ c, setBits? a i w = some c ∧ c.length = a.length ∧
      ∀ p, bit c p = (bit a p || (decide (p / 32 = i) && w.toNat.testBit (p % 32))) := by
  refine ⟨_, if_pos hi, List.length_modify .., ?_⟩
  intro p
  rw [bit, bit, wordAt, wordAt, List.getElem?_modify]
  by_cases hp : p / 32 = i
  · rw [hp, List.getElem?_eq_getElem hi]
    simp [Nat.testBit_or]
  · simp [hp, Ne.symm hp]

theorem testBit_shiftLeft {shift q : Nat} (hshift : shift < 32) (hq : q < 32) (w : UInt32) :
    (w <<< UInt32.ofNat shift).toNat.testBit q =
      (decide (shift ≤ q) && w.toNat.testBit (q - shift)) := by
  rw [UInt32.toNat_shiftLeft, shiftAmount_mod hshift, Nat.testBit_mod_two_pow,
    Nat.testBit_shiftLeft, decide_eq_true hq, Bool.true_and]

theorem testBit_shiftRight {shift : Nat} (hshift : shift < 32) (w : UInt32) (q : Nat) :
    (w >>> UInt32.ofNat shift).toNat.testBit q = w.toNat.testBit (shift + q) := by
  rw [UInt32.toNat_shiftRight, shiftAmount_mod hshift, Nat.testBit_shiftRight]

section Chunk

variable {p : Nat}

theorem testBit_low_word (hp : p / 32 = position / 32) (value : UInt32) :
    (value <<< UInt32.ofNat (position % 32)).toNat.testBit (p % 32) =
      (decide (position ≤ p) && value.toNat.testBit (p - position)) := by
  have hplace : p % 32 - position % 32 = p - position := by omega
  have hle : position % 32 ≤ p % 32 ↔ position ≤ p := by omega
  rw [testBit_shiftLeft (Nat.mod_lt _ (by decide)) (Nat.mod_lt _ (by decide)), hplace,
    decide_eq_decide.mpr hle]

theorem testBit_high_word (hp : p / 32 = position / 32 + 1) (hshift : 0 < position % 32)
    (value : UInt32) :
    (value >>> UInt32.ofNat (32 - position % 32)).toNat.testBit (p % 32) =
      (decide (position ≤ p) && value.toNat.testBit (p - position)) := by
  have hplace : 32 - position % 32 + p % 32 = p - position := by omega
  have hle : position ≤ p := by omega
  rw [testBit_shiftRight (by omega), hplace, decide_eq_true hle, Bool.true_and]

/-- A chunk has no bits outside the words that it is written to. -/
theorem chunk_eq_false (hcount : count ≤ 32) (hvalue : value.toNat < 2 ^ count)
    (hlow : p / 32 ≠ position / 32)
    (hhigh : 0 < position % 32 ∧ 32 < position % 32 + count → p / 32 ≠ position / 32 + 1) :
    (decide (position ≤ p) && value.toNat.testBit (p - position)) = false := by
  rw [Bool.and_eq_false_iff, decide_eq_false_iff_not]
  rcases Nat.lt_or_ge p position with hlt | hge
  · exact .inl (Nat.not_le.mpr hlt)
  · refine .inr (Nat.testBit_lt_two_pow (Nat.lt_of_lt_of_le hvalue ?_))
    exact Nat.pow_le_pow_right (by decide) (by omega)

/-- Both words of a chunk are in the vector if its bits are. -/
theorem writeChunk?_eq (hpos : 0 < count) (hcount : count ≤ 32) (hvalue : value.toNat < 2 ^ count)
    (hfits : position + count ≤ 32 * a.length) :
    ∃ c, writeChunk? a position count value = some c ∧ c.length = a.length ∧
      ∀ p, bit c p =
        (bit a p || (decide (position ≤ p) && value.toNat.testBit (p - position))) := by
  obtain ⟨low, hlow, hlen, hbit⟩ := setBits?_eq (a := a) (i := position / 32) (by omega)
    (value <<< UInt32.ofNat (position % 32))
  by_cases hsplit : 0 < position % 32 ∧ 32 < position % 32 + count
  · obtain ⟨c, hc, hlen', hbit'⟩ := setBits?_eq (a := low) (i := position / 32 + 1) (by omega)
      (value >>> UInt32.ofNat (32 - position % 32))
    refine ⟨c, ?_, hlen'.trans hlen, ?_⟩
    · simp only [writeChunk?, Limits.bitsPerWord, hlow, Option.bind_eq_bind, Option.bind_some,
        if_pos hsplit, hc]
    · intro p
      rw [hbit', hbit, Bool.or_assoc]
      congr 1
      by_cases hp : p / 32 = position / 32
      · rw [hp, testBit_low_word hp]
        simp
      · by_cases hp' : p / 32 = position / 32 + 1
        · rw [hp', testBit_high_word hp' hsplit.1]
          simp
        · rw [chunk_eq_false hcount hvalue hp fun _ => hp']
          simp [hp, hp']
  · refine ⟨low, ?_, hlen, ?_⟩
    · simp only [writeChunk?, Limits.bitsPerWord, hlow, Option.bind_eq_bind, Option.bind_some]
      exact if_neg hsplit
    · intro p
      rw [hbit]
      congr 1
      by_cases hp : p / 32 = position / 32
      · rw [hp, testBit_low_word hp]
        simp
      · rw [chunk_eq_false hcount hvalue hp fun h => absurd h hsplit]
        simp [hp]

end Chunk

/-- Behind the first `done` bits of a field stand those of its next word. -/
theorem field_bit_succ (hdone : done % 32 = 0) (hcount : count ≤ 32) (offset p : Nat) :
    (decide (offset ≤ p ∧ p < offset + (done + count)) && bit source (p - offset)) =
      ((decide (offset ≤ p ∧ p < offset + done) && bit source (p - offset)) ||
        (decide (offset + done ≤ p) && (wordAt source (done / 32) &&& maskBelow count).toNat.testBit
          (p - (offset + done)))) := by
  rw [toNat_and_maskBelow, Nat.testBit_mod_two_pow]
  rcases Nat.lt_or_ge p (offset + done) with hlt | hge
  · simp [hlt, Nat.lt_of_lt_of_le hlt (by omega : offset + done ≤ offset + (done + count)),
      Nat.not_le.mpr hlt]
  · rcases Nat.lt_or_ge (p - (offset + done)) count with hin | hout
    · have hword : (p - offset) / 32 = done / 32 := by omega
      have hplace : (p - offset) % 32 = p - (offset + done) := by omega
      have hbelow : p < offset + (done + count) := by omega
      simp [hge, hin, hbelow, Nat.not_lt.mpr hge, bit, hword, hplace, (by omega : offset ≤ p)]
    · have habove : offset + (done + count) ≤ p := by omega
      simp [Nat.not_lt.mpr hge, Nat.not_lt.mpr hout, Nat.not_lt.mpr habove]

/-- One turn of the loop: the vector holds a longer field. -/
theorem writeChunk?_append (hdone : done % 32 = 0) (hpos : 0 < count) (hcount : count ≤ 32)
    (hfits : offset + (done + count) ≤ 32 * a.length) :
    writeChunk? (append a offset source done) (offset + done) count
        (wordAt source (done / 32) &&& maskBelow count) =
      some (append a offset source (done + count)) := by
  have hlen : ∀ {n}, n ≤ done + count → (append a offset source n).length = a.length := by
    intro n hn
    rw [length_append, Nat.max_eq_left]
    rw [wordsFor_le_iff]
    omega
  have hbound : (wordAt source (done / 32) &&& maskBelow count).toNat < 2 ^ count := by
    rw [toNat_and_maskBelow]
    exact Nat.mod_lt _ (Nat.two_pow_pos count)
  have hroom : offset + done + count ≤ 32 * (append a offset source done).length := by
    rw [hlen (by omega)]
    omega
  obtain ⟨c, hc, hlenC, hbit⟩ := writeChunk?_eq hpos hcount hbound hroom
  refine hc.trans (congrArg some (eq_of_bit_eq ?_ ?_))
  · rw [hlenC, hlen (by omega), hlen (Nat.le_refl _)]
  · intro p
    rw [hbit, bit_append, bit_append, field_bit_succ hdone hcount, Bool.or_assoc]

theorem writeChunks?_append (hdone : done % 32 = 0 ∨ done = bits) (hle : done ≤ bits)
    (hfits : offset + bits ≤ 32 * a.length) :
    writeChunks? offset source bits done (append a offset source done) =
      some (append a offset source bits) := by
  -- on the bits that are left; only the last turn may take fewer than a word
  induction hleft : bits - done using Nat.strong_induction_on generalizing done with
  | h left ih =>
      rw [writeChunks?, Limits.bitsPerWord]
      split
      case isTrue hlt =>
        have hturn : writeChunk? (append a offset source done) (offset + done)
            (min (bits - done) 32) _ = some _ :=
          writeChunk?_append (hdone.resolve_right hlt.ne) (by omega) (Nat.min_le_right ..)
            (by omega)
        simp only [hturn, Option.bind_eq_bind, Option.bind_some]
        exact ih _ (by omega) (by omega) (by omega) rfl
      case isFalse hge =>
        obtain rfl : done = bits := by omega
        rfl

theorem bit_padTo (n : Nat) (a : Words) (p : Nat) : bit (padTo n a) p = bit a p := by
  rw [bit_eq_testBit, bit_eq_testBit, toNat_padTo]

theorem append_zero_bits (h : wordsFor offset ≤ a.length) : append a offset source 0 = a := by
  apply eq_of_bit_eq
  · exact (length_append ..).trans (Nat.max_eq_left h)
  · intro p
    rw [bit_append, decide_eq_false (by omega), Bool.false_and, Bool.or_false]

theorem append_padTo (a : Words) (offset : Nat) (source : Words) (bits : Nat) :
    append (padTo (wordsFor (offset + bits)) a) offset source bits =
      append a offset source bits := by
  apply eq_of_bit_eq
  · rw [length_append, length_append, length_padTo]
    omega
  · intro p
    rw [bit_append, bit_append, bit_padTo]

/-- A field is written by a loop over the words of its source, on a vector that was made long enough
before; no turn leaves the vector. -/
theorem append?_eq_writeChunks? (a : Words) (offset : Nat) (source : Words) (bits : Nat) :
    append? a offset source bits =
      if offset + bits < Limits.indexBound then
        writeChunks? offset source bits 0 (padTo (wordsFor (offset + bits)) a)
      else none := by
  let padded := padTo (wordsFor (offset + bits)) a
  have hfits : offset + bits ≤ 32 * padded.length := by
    rw [← wordsFor_le_iff, length_padTo]
    exact Nat.le_max_right ..
  have hstart : append padded offset source 0 = padded :=
    append_zero_bits (wordsFor_le_iff.mpr (by omega))
  have hloop : writeChunks? offset source bits 0 (append padded offset source 0) = _ :=
    writeChunks?_append (.inl rfl) (Nat.zero_le bits) hfits
  rw [hstart, append_padTo] at hloop
  rw [append?, hloop]

end FermatMul.Words
