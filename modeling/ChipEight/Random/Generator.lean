import ChipEight.Random.Seed

namespace ChipEight

/-!
# The random number generator

A generator is a key and the number of bytes drawn so far. The byte at any position
is the low byte of that word of the key's stream of blocks, so the whole sequence is
a function of the key: drawing only moves the position.
-/

namespace Random

/-- The byte at a position of the stream of a key. -/
def byteAt (key : Vector UInt32 8) (position : Nat) : UInt8 :=
  let words := block key (UInt64.ofNat (position / 16))
  (words.get ⟨position % 16, Nat.mod_lt _ (by decide)⟩).toUInt8

end Random

structure Generator where
  key : Vector UInt32 8
  drawn : Nat
  deriving DecidableEq

namespace Generator

def ofSeed (seed : UInt64) : Generator := ⟨Random.keyOfSeed seed, 0⟩

def peek (g : Generator) : UInt8 := Random.byteAt g.key g.drawn

def next (g : Generator) : Generator := { g with drawn := g.drawn + 1 }

end Generator

end ChipEight
