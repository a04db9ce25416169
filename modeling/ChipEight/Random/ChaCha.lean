namespace ChipEight.Random

/-!
# The ChaCha block function

Sixteen 32-bit words are made from a key of eight words and a 64-bit block number by
six double rounds on a four by four matrix, followed by adding the matrix the rounds
began with.
-/

/-- A matrix of sixteen words, row by row. -/
abbrev Block := Vector UInt32 16

def rotateLeft (w : UInt32) (k : UInt32) : UInt32 := (w <<< k) ||| (w >>> (32 - k))

def rotateRight (w : UInt32) (k : UInt32) : UInt32 := (w >>> k) ||| (w <<< (32 - k))

/-- Add, exclusive or and rotate: word `b` is added to word `a`, and word `d` is mixed with
the sum. -/
def mix (s : Block) (a b d : Fin 16) (k : UInt32) : Block :=
  let sum := s[a] + s[b]
  let turned := rotateLeft (s[d] ^^^ sum) k
  (s.set a.val sum a.isLt).set d.val turned d.isLt

def quarterRound (s : Block) (a b c d : Fin 16) : Block :=
  let s := mix s a b d 16
  let s := mix s c d b 12
  let s := mix s a b d 8
  mix s c d b 7

def doubleRound (s : Block) : Block :=
  let s := quarterRound s 0 4 8 12
  let s := quarterRound s 1 5 9 13
  let s := quarterRound s 2 6 10 14
  let s := quarterRound s 3 7 11 15
  let s := quarterRound s 0 5 10 15
  let s := quarterRound s 1 6 11 12
  let s := quarterRound s 2 7 8 13
  quarterRound s 3 4 9 14

def doubleRounds (s : Block) : Nat → Block
  | 0 => s
  | count + 1 => doubleRounds (doubleRound s) count

/-- The matrix before the rounds: four constants, the key, and the block number. -/
def start (key : Vector UInt32 8) (number : UInt64) : Block :=
  #v[0x61707865, 0x3320646e, 0x79622d32, 0x6b206574,
     key[0], key[1], key[2], key[3], key[4], key[5], key[6], key[7],
     number.toUInt32, (number >>> 32).toUInt32, 0, 0]

def block (key : Vector UInt32 8) (number : UInt64) : Block :=
  let s := start key number
  Vector.zipWith (· + ·) (doubleRounds s 6) s

end ChipEight.Random
