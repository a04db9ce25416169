namespace ChipEight

/-!
# Instruction words

A program is a sequence of 16-bit words. The four hexadecimal digits of a word are
its group, the registers `X` and `Y`, and a small number `N`; the last two digits
are also read together as the byte `NN` and the last three as the address `NNN`.
-/

abbrev Reg := Fin 16

abbrev Address := Fin 4096

abbrev Word := UInt16

namespace Word

/-- The word made of a high and a low byte. -/
def ofBytes (high low : UInt8) : Word := UInt16.ofNat (256 * high.toNat + low.toNat)

def high (w : Word) : UInt8 := UInt8.ofNat (w.toNat / 256)

def low (w : Word) : UInt8 := UInt8.ofNat (w.toNat % 256)

/-- The first digit, which selects the family of the instruction. -/
def group (w : Word) : Fin 16 :=
  ⟨w.toNat / 4096, Nat.div_lt_of_lt_mul w.toNat_lt⟩

def x (w : Word) : Reg := ⟨w.toNat / 256 % 16, Nat.mod_lt _ (by decide)⟩

def y (w : Word) : Reg := ⟨w.toNat / 16 % 16, Nat.mod_lt _ (by decide)⟩

def n (w : Word) : Fin 16 := ⟨w.toNat % 16, Nat.mod_lt _ (by decide)⟩

def nn (w : Word) : UInt8 := w.low

def nnn (w : Word) : Address := ⟨w.toNat % 4096, Nat.mod_lt _ (by decide)⟩

def digits (w : Word) : List (Fin 16) := [w.group, w.x, w.y, w.n]

theorem toNat_ofBytes (high low : UInt8) :
    (ofBytes high low).toNat = 256 * high.toNat + low.toNat := by
  have := high.toNat_lt
  have := low.toNat_lt
  simp only [ofBytes, UInt16.toNat_ofNat']
  omega

@[simp] theorem high_ofBytes (high low : UInt8) : (ofBytes high low).high = high := by
  have := low.toNat_lt
  apply UInt8.toNat_inj.mp
  have := high.toNat_lt
  simp only [Word.high, toNat_ofBytes, UInt8.toNat_ofNat']
  omega

@[simp] theorem low_ofBytes (high low : UInt8) : (ofBytes high low).low = low := by
  have := low.toNat_lt
  apply UInt8.toNat_inj.mp
  simp only [Word.low, toNat_ofBytes, UInt8.toNat_ofNat']
  omega

@[simp] theorem ofBytes_high_low (w : Word) : ofBytes w.high w.low = w := by
  have := w.toNat_lt
  apply UInt16.toNat_inj.mp
  simp only [toNat_ofBytes, Word.high, Word.low, UInt8.toNat_ofNat']
  omega

end Word

end ChipEight
