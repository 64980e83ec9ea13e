import FermatMul.Words.Basic

namespace FermatMul

namespace Words

def ofQuad (b₀ b₁ b₂ b₃ : UInt8) : UInt32 :=
  b₀.toUInt32 ||| b₁.toUInt32 <<< 8 ||| b₂.toUInt32 <<< 16 ||| b₃.toUInt32 <<< 24

def toQuad (w : UInt32) : List UInt8 :=
  [w.toUInt8, (w >>> 8).toUInt8, (w >>> 16).toUInt8, (w >>> 24).toUInt8]

/-- Packs bytes into words, four to a word; zero bytes fill the last one. -/
def ofBytes : List UInt8 → Words
  | b₀ :: b₁ :: b₂ :: b₃ :: bs => ofQuad b₀ b₁ b₂ b₃ :: ofBytes bs
  | [b₀, b₁, b₂] => [ofQuad b₀ b₁ b₂ 0]
  | [b₀, b₁] => [ofQuad b₀ b₁ 0 0]
  | [b₀] => [ofQuad b₀ 0 0 0]
  | [] => []

def toBytes (a : Words) : List UInt8 :=
  a.flatMap toQuad

@[simp] theorem length_toBytes (a : Words) : (toBytes a).length = 4 * a.length := by
  induction a with
  | nil => rfl
  | cons w ws ih => simp [toBytes, toQuad, List.flatMap_cons] at ih ⊢; omega

end Words

namespace Bytes

/-- The bytes of a natural number, least significant first; zero has one byte. -/
def littleEndian (n : Nat) : List UInt8 :=
  if n < 256 then [UInt8.ofNat n] else UInt8.ofNat n :: littleEndian (n / 256)

def bigEndian (n : Nat) : List UInt8 :=
  (littleEndian n).reverse

def ofLittleEndian : List UInt8 → Nat
  | [] => 0
  | b :: bs => b.toNat + 256 * ofLittleEndian bs

def ofBigEndian (bytes : List UInt8) : Nat :=
  ofLittleEndian bytes.reverse

theorem ofLittleEndian_littleEndian (n : Nat) : ofLittleEndian (littleEndian n) = n := by
  fun_induction littleEndian n with
  | case1 n h => simp [ofLittleEndian]; omega
  | case2 n h ih => simp [ofLittleEndian, ih]; omega

theorem ofBigEndian_bigEndian (n : Nat) : ofBigEndian (bigEndian n) = n := by
  simp [ofBigEndian, bigEndian, ofLittleEndian_littleEndian]

end Bytes

end FermatMul
