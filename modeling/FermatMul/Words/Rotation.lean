import FermatMul.Words.Field

namespace FermatMul.Words

/-- Moves the words up by `k` places, the top ones to the bottom. -/
def rotateWords (a : Words) (k : Nat) : Words :=
  a.drop (a.length - k) ++ a.take (a.length - k)

/-- Rotates the bits up by `bits` places, counted modulo the length in bits. -/
def rotateLeft (a : Words) (bits : Nat) : Words :=
  let places := bits % (Limits.bitsPerWord * a.length)
  let turned := rotateWords a (places / Limits.bitsPerWord)
  shiftFrom (places % Limits.bitsPerWord) (turned.getLastD 0) turned

def rotateRight (a : Words) (bits : Nat) : Words :=
  let total := Limits.bitsPerWord * a.length
  rotateLeft a (total - bits % total)

@[simp] theorem length_rotateWords (a : Words) (k : Nat) :
    (rotateWords a k).length = a.length := by
  simp only [rotateWords, List.length_append, List.length_drop, List.length_take]
  omega

@[simp] theorem length_rotateLeft (a : Words) (bits : Nat) :
    (rotateLeft a bits).length = a.length := by
  simp [rotateLeft]

@[simp] theorem length_rotateRight (a : Words) (bits : Nat) :
    (rotateRight a bits).length = a.length := by
  simp [rotateRight]

@[simp] theorem rotateLeft_nil (bits : Nat) : rotateLeft [] bits = [] := by
  simp [rotateLeft, rotateWords, shiftFrom]

@[simp] theorem rotateRight_nil (bits : Nat) : rotateRight [] bits = [] := by
  simp [rotateRight]

end FermatMul.Words
