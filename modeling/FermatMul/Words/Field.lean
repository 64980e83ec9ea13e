import FermatMul.Words.Carry

namespace FermatMul.Words

/-- The word whose lowest `bits` bits are set; all of them from 32 on. -/
def maskBelow (bits : Nat) : UInt32 :=
  if bits < Limits.bitsPerWord then 1 <<< UInt32.ofNat bits - 1 else 0xffffffff

def truncate : Nat → Words → Words
  | _, [] => []
  | bits, w :: ws => (w &&& maskBelow bits) :: truncate (bits - Limits.bitsPerWord) ws

/-- The bits of `w` that leave its top when it is shifted left by `shift < 32`. -/
def spill (shift : Nat) (w : UInt32) : UInt32 :=
  if shift = 0 then 0 else w >>> UInt32.ofNat (Limits.bitsPerWord - shift)

/-- Shifts a vector left by `shift < 32`, filling it from the word `below` its bottom. -/
def shiftFrom (shift : Nat) (below : UInt32) : Words → Words
  | [] => []
  | w :: ws => (w <<< UInt32.ofNat shift ||| spill shift below) :: shiftFrom shift w ws

def wordAt (a : Words) (i : Nat) : UInt32 :=
  a[i]?.getD 0

def window (a : Words) (position : Nat) : UInt32 :=
  let shift := position % Limits.bitsPerWord
  let index := position / Limits.bitsPerWord
  let low := wordAt a index >>> UInt32.ofNat shift
  if shift = 0 then low
  else low ||| wordAt a (index + 1) <<< UInt32.ofNat (Limits.bitsPerWord - shift)

/-- The `bits` bits from `offset` on, as a vector just long enough for them. -/
def extract (a : Words) (offset bits : Nat) : Words :=
  truncate bits
    ((List.range (wordsFor bits)).map fun k => window a (offset + Limits.bitsPerWord * k))

/-- The first vector with the bits of the second set in it; its length stays. -/
def union : Words → Words → Words
  | [], _ => []
  | as, [] => as
  | a :: as, b :: bs => (a ||| b) :: union as bs

def padTo (n : Nat) (a : Words) : Words :=
  a ++ zeros (n - a.length)

/-- Sets the low `bits` bits of the source at bit `offset`, growing the vector where it must. -/
def append (a : Words) (offset : Nat) (source : Words) (bits : Nat) : Words :=
  let field := extract source 0 bits
  let shifted := shiftFrom (offset % Limits.bitsPerWord) 0 (field ++ [0])
  union (padTo (wordsFor (offset + bits)) a) (zeros (offset / Limits.bitsPerWord) ++ shifted)

/-- Adds the second vector at a word offset; what passes the end of the first is dropped. -/
def addAt (a b : Words) (offset : Nat) : Words :=
  let window := a.drop offset
  let sum := addCarry (window.take b.length) b false
  a.take offset ++ (sum.1 ++ (ripple (window.drop b.length) sum.2.toUInt32).1)

def extract? (a : Words) (offset bits : Nat) : Option Words :=
  if bits = 0 ∨ offset + Limits.bitsPerWord * (wordsFor bits - 1) < Limits.indexBound then
    some (extract a offset bits)
  else none

def append? (a : Words) (offset : Nat) (source : Words) (bits : Nat) : Option Words :=
  if offset + bits < Limits.indexBound then some (append a offset source bits) else none

@[simp] theorem length_truncate (bits : Nat) (a : Words) :
    (truncate bits a).length = a.length := by
  induction a generalizing bits with
  | nil => rfl
  | cons w ws ih => simp [truncate, ih]

@[simp] theorem length_shiftFrom (shift : Nat) (below : UInt32) (a : Words) :
    (shiftFrom shift below a).length = a.length := by
  induction a generalizing below with
  | nil => rfl
  | cons w ws ih => simp [shiftFrom, ih]

@[simp] theorem length_extract (a : Words) (offset bits : Nat) :
    (extract a offset bits).length = wordsFor bits := by
  simp [extract]

@[simp] theorem length_union (a b : Words) : (union a b).length = a.length := by
  fun_induction union a b <;> simp_all

@[simp] theorem length_padTo (n : Nat) (a : Words) : (padTo n a).length = max a.length n := by
  simp only [padTo, List.length_append, length_zeros]
  omega

@[simp] theorem length_append (a : Words) (offset : Nat) (source : Words) (bits : Nat) :
    (append a offset source bits).length = max a.length (wordsFor (offset + bits)) := by
  simp [append]

@[simp] theorem length_addAt (a b : Words) (offset : Nat) :
    (addAt a b offset).length = a.length := by
  simp only [addAt, List.length_append, List.length_take, length_addCarry, List.length_drop,
    length_ripple]
  omega

end FermatMul.Words
