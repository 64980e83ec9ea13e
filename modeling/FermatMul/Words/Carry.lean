import FermatMul.Words.Basic

namespace FermatMul.Words

open scoped FermatMul.CorePower

def addWord (a b : UInt32) (carry : Bool) : UInt32 × Bool :=
  let sum := a + b
  let total := sum + carry.toUInt32
  (total, decide (sum < a) || decide (total < sum))

def subWord (a b : UInt32) (borrow : Bool) : UInt32 × Bool :=
  let difference := a - b
  (difference - borrow.toUInt32, decide (a < b) || decide (difference < borrow.toUInt32))

/-- Adds the second vector into the first, word by word up to the end of the shorter one. -/
def addCarry : Words → Words → Bool → Words × Bool
  | a :: as, b :: bs, carry =>
      let step := addWord a b carry
      let rest := addCarry as bs step.2
      (step.1 :: rest.1, rest.2)
  | as, _, carry => (as, carry)

def subBorrow : Words → Words → Bool → Words × Bool
  | a :: as, b :: bs, borrow =>
      let step := subWord a b borrow
      let rest := subBorrow as bs step.2
      (step.1 :: rest.1, rest.2)
  | as, _, borrow => (as, borrow)

/-- Adds one word at the bottom and carries it upwards; what falls off the top is returned. -/
def ripple : Words → UInt32 → Words × UInt32
  | [], carry => ([], carry)
  | a :: as, carry =>
      if carry = 0 then (a :: as, 0)
      else
        let sum := a + carry
        let rest := ripple as (decide (sum < a)).toUInt32
        (sum :: rest.1, rest.2)

/-- The cell `x * y + acc + carry` of a long multiplication as its low and its high word. -/
def mulAdd (x y acc carry : UInt32) : UInt32 × UInt32 :=
  let cell := x.toUInt64 * y.toUInt64 + acc.toUInt64 + carry.toUInt64
  (cell.toUInt32, (cell >>> 32).toUInt32)

theorem toNat_toUInt32 (b : Bool) : b.toUInt32.toNat = b.toNat := by
  cases b <;> rfl

theorem addWord_eq (a b : UInt32) (carry : Bool) :
    (addWord a b carry).1.toNat + 2 ^ (32 : Nat) * (addWord a b carry).2.toNat =
      a.toNat + b.toNat + carry.toNat := by
  have ha := a.toNat_lt
  have hb := b.toNat_lt
  have hc := Bool.toNat_le carry
  simp only [addWord, UInt32.lt_iff_toNat_lt, UInt32.toNat_add, toNat_toUInt32]
  by_cases h₁ : (a.toNat + b.toNat) % 2 ^ (32 : Nat) < a.toNat <;>
    by_cases h₂ : ((a.toNat + b.toNat) % 2 ^ (32 : Nat) + carry.toNat) % 2 ^ (32 : Nat) <
        (a.toNat + b.toNat) % 2 ^ (32 : Nat) <;>
      simp only [h₁, h₂, decide_true, decide_false, Bool.or_true, Bool.or_false, Bool.toNat_true,
        Bool.toNat_false] <;>
      omega

theorem subWord_eq (a b : UInt32) (borrow : Bool) :
    (subWord a b borrow).1.toNat + b.toNat + borrow.toNat =
      a.toNat + 2 ^ (32 : Nat) * (subWord a b borrow).2.toNat := by
  have ha := a.toNat_lt
  have hb := b.toNat_lt
  have hc := Bool.toNat_le borrow
  simp only [subWord, UInt32.lt_iff_toNat_lt, UInt32.toNat_sub, toNat_toUInt32]
  by_cases h₁ : a.toNat < b.toNat <;>
    by_cases h₂ : (2 ^ (32 : Nat) - b.toNat + a.toNat) % 2 ^ (32 : Nat) < borrow.toNat <;>
      simp only [h₁, h₂, decide_true, decide_false, Bool.or_true, Bool.or_false, Bool.toNat_true,
        Bool.toNat_false] <;>
      omega

theorem mulAdd_eq (x y acc carry : UInt32) :
    (mulAdd x y acc carry).1.toNat + 2 ^ (32 : Nat) * (mulAdd x y acc carry).2.toNat =
      x.toNat * y.toNat + acc.toNat + carry.toNat := by
  have hx := x.toNat_lt
  have hy := y.toNat_lt
  have ha := acc.toNat_lt
  have hc := carry.toNat_lt
  have hxy : x.toNat * y.toNat ≤ (2 ^ (32 : Nat) - 1) * (2 ^ (32 : Nat) - 1) :=
    Nat.mul_le_mul (by omega) (by omega)
  simp only [mulAdd, UInt64.toNat_toUInt32, UInt64.toNat_shiftRight, UInt64.toNat_add,
    UInt64.toNat_mul, UInt32.toNat_toUInt64, Nat.shiftRight_eq_div_pow]
  have h32 : (32 : UInt64).toNat % 64 = 32 := rfl
  rw [h32]
  generalize x.toNat * y.toNat = product at *
  omega

@[simp] theorem length_addCarry (a b : Words) (carry : Bool) :
    (addCarry a b carry).1.length = a.length := by
  fun_induction addCarry a b carry <;> simp_all +zetaDelta

@[simp] theorem length_subBorrow (a b : Words) (borrow : Bool) :
    (subBorrow a b borrow).1.length = a.length := by
  fun_induction subBorrow a b borrow <;> simp_all +zetaDelta

@[simp] theorem length_ripple (a : Words) (carry : UInt32) :
    (ripple a carry).1.length = a.length := by
  fun_induction ripple a carry <;> simp_all +zetaDelta

end FermatMul.Words
