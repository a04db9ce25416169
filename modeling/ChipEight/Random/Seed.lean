import ChipEight.Random.ChaCha

namespace ChipEight.Random

/-!
# Seeds

A 64-bit seed is spread over the eight words of a key by a linear congruential
generator whose state is permuted on output: the high half of the state is folded
onto itself and rotated by the top five bits.
-/

def advance (s : UInt64) : UInt64 := s * 6364136223846793005 + 11634580027462260723

def permuted (s : UInt64) : UInt32 :=
  rotateRight (((s >>> 18) ^^^ s) >>> 27).toUInt32 (s >>> 59).toUInt32

def advanced (s : UInt64) : Nat → UInt64
  | 0 => s
  | count + 1 => advanced (advance s) count

/-- The key that a seed stands for. -/
def keyOfSeed (seed : UInt64) : Vector UInt32 8 :=
  Vector.ofFn fun i => permuted (advanced seed (i.val + 1))

end ChipEight.Random
