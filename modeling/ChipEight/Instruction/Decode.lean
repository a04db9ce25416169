import ChipEight.Instruction

namespace ChipEight

/-!
# Decoding

`ofWord?` reads an instruction from a word. The first digit selects the family; the
families 0, E and F are told apart by the last byte, family 8 by the last digit, and
the register comparisons in 5 and 9 do not look at the last digit at all.
-/

/-- The register combination that the last digit of a word of family 8 names. -/
def Combine.ofDigit? (n : Nat) : Option Combine :=
  match n with
  | 0x0 => some .copy
  | 0x1 => some .or
  | 0x2 => some .and
  | 0x3 => some .xor
  | 0x4 => some .add
  | 0x5 => some .subtract
  | 0x6 => some .shiftRight
  | 0x7 => some .subtractFrom
  | 0xE => some .shiftLeft
  | _ => none

namespace Instruction

def ofSystemByte? (nn : Nat) : Option Instruction :=
  match nn with
  | 0xE0 => some .clear
  | 0xEE => some .ret
  | _ => none

def ofKeyByte? (x : Reg) (nn : Nat) : Option Instruction :=
  match nn with
  | 0x9E => some (.skipIf (.keyHeld x))
  | 0xA1 => some (.skipIf (.keyFree x))
  | _ => none

def ofDeviceByte? (x : Reg) (nn : Nat) : Option Instruction :=
  match nn with
  | 0x07 => some (.readDelay x)
  | 0x0A => some (.awaitKey x)
  | 0x15 => some (.writeDelay x)
  | 0x18 => some (.beep x)
  | 0x1E => some (.addIndex x)
  | 0x29 => some (.pointAtDigit x)
  | 0x33 => some (.storeDigits x)
  | 0x55 => some (.save x)
  | 0x65 => some (.restore x)
  | _ => none

def ofWord? (w : Word) : Option Instruction :=
  match w.group.val with
  | 0x0 => ofSystemByte? w.nn.toNat
  | 0x1 => some (.jump w.nnn)
  | 0x2 => some (.call w.nnn)
  | 0x3 => some (.skipIf (.equalsByte w.x w.nn))
  | 0x4 => some (.skipIf (.differsByte w.x w.nn))
  | 0x5 => some (.skipIf (.equalsReg w.x w.y))
  | 0x6 => some (.setByte w.x w.nn)
  | 0x7 => some (.addByte w.x w.nn)
  | 0x8 => (Combine.ofDigit? w.n.val).map fun f => .combine f w.x w.y
  | 0x9 => some (.skipIf (.differsReg w.x w.y))
  | 0xA => some (.setIndex w.nnn)
  | 0xB => some (.jumpOffset w.nnn)
  | 0xC => some (.random w.x w.nn)
  | 0xD => some (.draw w.x w.y w.n)
  | 0xE => ofKeyByte? w.x w.nn.toNat
  | 0xF => ofDeviceByte? w.x w.nn.toNat
  | _ => none

def IsValid (w : Word) : Prop := (ofWord? w).isSome

instance (w : Word) : Decidable (IsValid w) := inferInstanceAs (Decidable (_ = true))

end Instruction

end ChipEight
