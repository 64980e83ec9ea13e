import FermatMul.Proofs.Words.Value
import FermatMul.Words.Bytes

namespace FermatMul.Words

theorem or_shiftLeft_byte {low shift : Nat} (hlow : low < 2 ^ shift) (hshift : shift ≤ 24)
    (b : UInt8) : low ||| b.toNat <<< shift % 2 ^ 32 = low + 2 ^ shift * b.toNat := by
  have hb := b.toNat_lt
  have hfits : b.toNat <<< shift < 2 ^ 32 := by
    rw [Nat.shiftLeft_eq]
    calc
      b.toNat * 2 ^ shift < 2 ^ 8 * 2 ^ shift := Nat.mul_lt_mul_of_pos_right hb (Nat.two_pow_pos _)
      _ = 2 ^ (8 + shift) := (Nat.pow_add 2 8 shift).symm
      _ ≤ 2 ^ 32 := Nat.pow_le_pow_right (by omega) (by omega)
  rw [Nat.mod_eq_of_lt hfits, Nat.shiftLeft_eq, Nat.mul_comm, Nat.or_comm,
    ← Nat.two_pow_add_eq_or_of_lt hlow, Nat.add_comm]

theorem toNat_ofQuad (b₀ b₁ b₂ b₃ : UInt8) :
    (ofQuad b₀ b₁ b₂ b₃).toNat = Bytes.ofLittleEndian [b₀, b₁, b₂, b₃] := by
  have h₀ := b₀.toNat_lt
  have h₁ := b₁.toNat_lt
  have h₂ := b₂.toNat_lt
  simp only [ofQuad, UInt32.toNat_or, UInt32.toNat_shiftLeft, UInt8.toNat_toUInt32]
  change ((b₀.toNat ||| b₁.toNat <<< 8 % 2 ^ 32) ||| b₂.toNat <<< 16 % 2 ^ 32) |||
    b₃.toNat <<< 24 % 2 ^ 32 = _
  rw [or_shiftLeft_byte h₀ (by omega) b₁, or_shiftLeft_byte (by omega) (by omega) b₂,
    or_shiftLeft_byte (by omega) (by omega) b₃]
  simp only [Bytes.ofLittleEndian]
  omega

theorem ofLittleEndian_toQuad (w : UInt32) (bytes : List UInt8) :
    Bytes.ofLittleEndian (toQuad w ++ bytes) = w.toNat + 2 ^ 32 * Bytes.ofLittleEndian bytes := by
  have hw := w.toNat_lt
  simp only [toQuad, List.cons_append, List.nil_append, Bytes.ofLittleEndian,
    UInt32.toNat_toUInt8, UInt32.toNat_shiftRight, Nat.shiftRight_eq_div_pow]
  change w.toNat % 2 ^ 8 + 256 * (w.toNat / 2 ^ 8 % 2 ^ 8 + 256 * (w.toNat / 2 ^ 16 % 2 ^ 8 +
    256 * (w.toNat / 2 ^ 24 % 2 ^ 8 + 256 * Bytes.ofLittleEndian bytes))) = _
  omega

theorem toNat_ofBytes (bytes : List UInt8) :
    toNat (ofBytes bytes) = Bytes.ofLittleEndian bytes := by
  fun_induction ofBytes bytes with
  | case1 b₀ b₁ b₂ b₃ bs ih =>
      rw [toNat_cons, ih, toNat_ofQuad]
      simp only [Bytes.ofLittleEndian]
      omega
  | case2 b₀ b₁ b₂ => simp [toNat_ofQuad, Bytes.ofLittleEndian]
  | case3 b₀ b₁ => simp [toNat_ofQuad, Bytes.ofLittleEndian]
  | case4 b₀ => simp [toNat_ofQuad, Bytes.ofLittleEndian]
  | case5 => rfl

theorem ofLittleEndian_toBytes (a : Words) : Bytes.ofLittleEndian (toBytes a) = toNat a := by
  induction a with
  | nil => rfl
  | cons w ws ih =>
      rw [toBytes, List.flatMap_cons, ofLittleEndian_toQuad, ← toBytes, ih, toNat_cons]

end FermatMul.Words
