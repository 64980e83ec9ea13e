import Mathlib.Data.List.Basic
import Mathlib.Data.List.Pairwise
import FermatMul.Proofs.Words.BitField

namespace FermatMul.Words

variable {a b : Words} {offset bits position : Nat}

/-- The bit of a vector at a position; past the end there are only zeros. -/
def bit (a : Words) (position : Nat) : Bool :=
  (wordAt a (position / 32)).toNat.testBit (position % 32)

theorem bit_eq_testBit (a : Words) (position : Nat) :
    bit a position = (toNat a).testBit position := by
  have hlow : position % 32 < 32 := Nat.mod_lt _ (by decide)
  rw [bit, toNat_wordAt, Nat.testBit_mod_two_pow, Nat.testBit_div_two_pow,
    decide_eq_true hlow, Bool.true_and, Nat.add_comm, Nat.div_add_mod]

theorem bit_eq_false_of_lt {places : Nat} (h : toNat a < 2 ^ places)
    (hposition : places ≤ position) : bit a position = false := by
  rw [bit_eq_testBit]
  exact Nat.testBit_lt_two_pow
    (Nat.lt_of_lt_of_le h (Nat.pow_le_pow_right (by omega) hposition))

/-- Vectors of one length are equal if their bits are. -/
theorem eq_of_bit_eq (hlen : a.length = b.length)
    (h : ∀ position, bit a position = bit b position) : a = b := by
  apply eq_of_toNat_eq hlen
  apply Nat.eq_of_testBit_eq
  intro position
  rw [← bit_eq_testBit, ← bit_eq_testBit, h]

theorem bit_append (a : Words) (offset : Nat) (source : Words) (bits position : Nat) :
    bit (append a offset source bits) position =
      (bit a position ||
        (decide (offset ≤ position ∧ position < offset + bits) &&
          bit source (position - offset))) := by
  rw [bit_eq_testBit, toNat_append, Nat.testBit_or, Nat.testBit_two_pow_mul,
    Nat.testBit_mod_two_pow, ← bit_eq_testBit, ← bit_eq_testBit, ← Bool.and_assoc,
    ← Bool.decide_and]
  congr 3
  apply propext
  omega

theorem bit_extract (a : Words) (offset bits position : Nat) :
    bit (extract a offset bits) position =
      (decide (position < bits) && bit a (offset + position)) := by
  rw [bit_eq_testBit, toNat_extract, Nat.testBit_mod_two_pow, Nat.testBit_div_two_pow,
    Nat.add_comm, ← bit_eq_testBit]

/-- Every word that is read starts at a position below the bound. -/
theorem extract?_eq (h : ∀ k < wordsFor bits, offset + 32 * k < Limits.indexBound) :
    extract? a offset bits = some (extract a offset bits) := by
  rw [extract?, if_pos]
  rcases Nat.eq_zero_or_pos bits with hzero | hpos
  · exact Or.inl hzero
  · have hwords : 0 < wordsFor bits := by
      simp only [wordsFor, Limits.bitsPerWord]
      omega
    exact Or.inr (h (wordsFor bits - 1) (by omega))

/-- A field to be written: the low `bits` bits of the source, from bit `offset` on. -/
structure BitField where
  offset : Nat
  bits : Nat
  source : Words
  deriving DecidableEq, Repr

namespace BitField

variable {f g : BitField}

def Covers (f : BitField) (position : Nat) : Prop :=
  f.offset ≤ position ∧ position < f.offset + f.bits

instance decidableCovers (f : BitField) (position : Nat) : Decidable (f.Covers position) :=
  inferInstanceAs (Decidable (_ ∧ _))

def Disjoint (f g : BitField) : Prop := ∀ position, f.Covers position → ¬ g.Covers position

/-- The end of the field is a machine word. -/
def InRange (f : BitField) : Prop := f.offset + f.bits < Limits.indexBound

/-- The bits that the field sets. -/
def bit (f : BitField) (position : Nat) : Bool :=
  decide (f.Covers position) && Words.bit f.source (position - f.offset)

def write (a : Words) (f : BitField) : Words := append a f.offset f.source f.bits

def write? (a : Words) (f : BitField) : Option Words := append? a f.offset f.source f.bits

def read? (a : Words) (f : BitField) : Option Words := extract? a f.offset f.bits

instance symmDisjoint : Std.Symm Disjoint where
  symm _ _ h position hg hf := h position hf hg

theorem bit_eq_false (h : ¬ f.Covers position) : f.bit position = false := by
  rw [bit, decide_eq_false h, Bool.false_and]

theorem bit_write (a : Words) (f : BitField) (position : Nat) :
    Words.bit (f.write a) position = (Words.bit a position || f.bit position) :=
  bit_append ..

theorem write_comm (a : Words) (f g : BitField) : g.write (f.write a) = f.write (g.write a) := by
  apply eq_of_bit_eq
  · simp only [write, length_append]
    omega
  · intro position
    rw [bit_write, bit_write, bit_write, bit_write, Bool.or_right_comm]

end BitField

/-- Writes the fields in the order of the list. -/
def writeAll? (a : Words) (fields : List BitField) : Option Words := fields.foldlM BitField.write? a

def writeAll (a : Words) (fields : List BitField) : Words := fields.foldl BitField.write a

section Run

variable {fields : List BitField} {f : BitField}

theorem writeAll?_eq (h : ∀ f ∈ fields, f.InRange) (a : Words) :
    writeAll? a fields = some (writeAll a fields) := by
  induction fields generalizing a with
  | nil => rfl
  | cons f fields ih =>
      have hwrite : f.write? a = some (f.write a) := if_pos (h f List.mem_cons_self)
      have hrest := ih (fun g hg => h g (List.mem_cons_of_mem f hg)) (f.write a)
      rw [writeAll?, List.foldlM_cons, hwrite]
      exact hrest

theorem writeAll_perm {fields' : List BitField} (h : fields'.Perm fields) (a : Words) :
    writeAll a fields' = writeAll a fields :=
  h.foldl_eq' (fun f _ g _ a => BitField.write_comm a f g) a

theorem bit_writeAll (a : Words) (fields : List BitField) (position : Nat) :
    bit (writeAll a fields) position = (bit a position || fields.any (·.bit position)) := by
  induction fields generalizing a with
  | nil => exact (Bool.or_false _).symm
  | cons f fields ih =>
      have hrest := ih (f.write a)
      rw [BitField.bit_write, Bool.or_assoc] at hrest
      exact hrest

theorem bit_writeAll_of_not_covers (h : ∀ f ∈ fields, ¬ f.Covers position) (a : Words) :
    bit (writeAll a fields) position = bit a position := by
  have hnone : fields.any (·.bit position) = false := by
    rw [List.any_eq_false]
    intro f hf
    simp [BitField.bit_eq_false (h f hf)]
  rw [bit_writeAll, hnone, Bool.or_false]

/-- Where fields do not meet, each one is alone on its bits. -/
theorem bit_writeAll_of_covers (hdisjoint : fields.Pairwise BitField.Disjoint) (hf : f ∈ fields)
    (hcovers : f.Covers position) (a : Words) :
    bit (writeAll a fields) position =
      (bit a position || bit f.source (position - f.offset)) := by
  have hany : fields.any (·.bit position) = f.bit position := by
    rw [Bool.eq_iff_iff, List.any_eq_true]
    constructor
    · rintro ⟨g, hg, hset⟩
      -- Another field that sets the bit would cover the position too.
      by_contra hunset
      have hne : f ≠ g := by
        rintro rfl
        exact hunset hset
      have hapart := hdisjoint.forall hf hg hne
      simp [BitField.bit_eq_false (hapart position hcovers)] at hset
    · intro hset
      exact ⟨f, hf, hset⟩
  rw [bit_writeAll, hany, BitField.bit, decide_eq_true hcovers, Bool.true_and]

/-- A field of its own, written where there are only zeros, is read back. -/
theorem extract_writeAll (hdisjoint : fields.Pairwise BitField.Disjoint) (hf : f ∈ fields)
    (hzero : ∀ position, f.Covers position → bit a position = false) :
    extract (writeAll a fields) f.offset f.bits = extract f.source 0 f.bits := by
  apply eq_of_bit_eq
  · rw [length_extract, length_extract]
  · intro position
    rw [bit_extract, bit_extract, Nat.zero_add]
    rcases Nat.lt_or_ge position f.bits with hlt | hge
    · have hcovers : f.Covers (f.offset + position) := ⟨by omega, by omega⟩
      rw [bit_writeAll_of_covers hdisjoint hf hcovers, hzero _ hcovers, Bool.false_or,
        Nat.add_sub_cancel_left]
    · rw [decide_eq_false (Nat.not_lt.mpr hge), Bool.false_and, Bool.false_and]

end Run

/-- Writing a field sets the low bits of the source at its offset and keeps all others; reading one
gives the bits from the offset on, at the length that they need. So fields that do not meet, written
over zeros in any order, give one vector. It has all the other bits unchanged, and reading a field
gives the low bits of its source. -/
theorem fields_exact :
    (∀ (a : Words) offset source bits, offset + bits < 2 ^ 64 →
      ∃ c, append? a offset source bits = some c ∧
        c.length = max a.length ((offset + bits + 31) / 32) ∧
        ∀ p, bit c p = (bit a p ||
          (decide (offset ≤ p ∧ p < offset + bits) && bit source (p - offset)))) ∧
    (∀ (a : Words) offset bits, (∀ k < (bits + 31) / 32, offset + 32 * k < 2 ^ 64) →
      ∃ d, extract? a offset bits = some d ∧ d.length = (bits + 31) / 32 ∧
        ∀ q, bit d q = (decide (q < bits) && bit a (offset + q))) ∧
    ∀ (a : Words) fields, (∀ f ∈ fields, f.InRange) → fields.Pairwise BitField.Disjoint →
      (∀ f ∈ fields, ∀ p, f.Covers p → bit a p = false) →
      ∃ c, (∀ fields', fields'.Perm fields → writeAll? a fields' = some c) ∧
        (∀ p, (∀ f ∈ fields, ¬ f.Covers p) → bit c p = bit a p) ∧
        ∀ f ∈ fields, ∃ d, f.read? c = some d ∧ d.length = (f.bits + 31) / 32 ∧
          ∀ q, bit d q = (decide (q < f.bits) && bit f.source q) := by
  refine ⟨?_, ?_, ?_⟩
  · intro a offset source bits hrange
    exact ⟨_, if_pos hrange, length_append .., bit_append a offset source bits⟩
  · intro a offset bits hrange
    exact ⟨_, extract?_eq hrange, length_extract .., bit_extract a offset bits⟩
  · intro a fields hrange hdisjoint hzero
    refine ⟨writeAll a fields, ?_, ?_, ?_⟩
    · intro fields' hperm
      rw [writeAll?_eq fun f hf => hrange f (hperm.mem_iff.mp hf), writeAll_perm hperm]
    · exact fun p hp => bit_writeAll_of_not_covers hp a
    · intro f hf
      have hend : ∀ k < wordsFor f.bits, f.offset + 32 * k < Limits.indexBound := by
        intro k hk
        have hlast := hrange f hf
        simp only [wordsFor, Limits.bitsPerWord] at hk
        simp only [BitField.InRange] at hlast
        omega
      refine ⟨_, extract?_eq hend, length_extract .., ?_⟩
      intro q
      rw [extract_writeAll hdisjoint hf (hzero f hf), bit_extract, Nat.zero_add]

/-- Fields that start and end inside words, the second one where the first one ends. -/
theorem fields_exact_straddling :
    let fields : List BitField := [⟨8, 27, [0xdeadbeef]⟩, ⟨35, 40, [0x12345678, 0x9a]⟩]
    (∃ c, append? [3615777] 22 [61797] 13 = some c ∧ c.length = 2 ∧ bit c 34 = true) ∧
    (∃ d, extract? [1500982305, 4] 22 13 = some d ∧ d.length = 1 ∧ bit d 12 = true) ∧
    ∃ c, writeAll? [255] fields = some c ∧ writeAll? [255] fields.reverse = some c ∧
      bit c 7 = true ∧ ∃ d, extract? c 35 40 = some d ∧ d.length = 2 ∧ bit d 33 = true := by
  intro fields
  obtain ⟨happend, hextract, hfields⟩ := fields_exact
  refine ⟨?_, ?_, ?_⟩
  · obtain ⟨c, hc, hlen, hbit⟩ := happend [3615777] 22 [61797] 13 (by decide)
    exact ⟨c, hc, hlen, (hbit 34).trans (by decide)⟩
  · obtain ⟨d, hd, hlen, hbit⟩ := hextract [1500982305, 4] 22 13 (by decide)
    exact ⟨d, hd, hlen, (hbit 12).trans (by decide)⟩
  · have hrange : ∀ f ∈ fields, f.offset + f.bits < 2 ^ 64 := by decide
    have hdisjoint : fields.Pairwise BitField.Disjoint := by
      simp only [fields, List.pairwise_pair, BitField.Disjoint, BitField.Covers]
      omega
    have hstart : ∀ f ∈ fields, 8 ≤ f.offset := by decide
    have hzero : ∀ f ∈ fields, ∀ p, f.Covers p → bit [255] p = false := by
      intro f hf p hp
      have hbyte : 2 ^ 8 ≤ 2 ^ p := Nat.pow_le_pow_right (by decide) ((hstart f hf).trans hp.1)
      rw [bit_eq_testBit]
      exact Nat.testBit_lt_two_pow (Nat.lt_of_lt_of_le (by decide) hbyte)
    obtain ⟨c, hany, hkept, hread⟩ := hfields [255] fields hrange hdisjoint hzero
    obtain ⟨d, hd, hlen, hbit⟩ := hread ⟨35, 40, [0x12345678, 0x9a]⟩ (by decide)
    have hlow : bit c 7 = bit [255] 7 := hkept 7 (by decide)
    refine ⟨c, hany _ (.refl _), hany _ (List.reverse_perm _), hlow.trans (by decide), ?_⟩
    exact ⟨d, hd, hlen, (hbit 33).trans (by decide)⟩

end FermatMul.Words
