import ChipEight.Word

namespace ChipEight

/-!
# Instructions

The instruction set as data: one constructor per kind of effect, with operands
whose types hold exactly the values a word can carry.
-/

inductive Condition
  | equalsByte (x : Reg) (k : UInt8)
  | differsByte (x : Reg) (k : UInt8)
  | equalsReg (x y : Reg)
  | differsReg (x y : Reg)
  | keyHeld (x : Reg)
  | keyFree (x : Reg)
  deriving DecidableEq, Repr

inductive Combine
  | copy
  | or
  | and
  | xor
  | add
  | subtract
  | shiftRight
  | subtractFrom
  | shiftLeft
  deriving DecidableEq, Repr

inductive Instruction
  | clear
  /-- Go back behind the latest call. -/
  | ret
  | jump (target : Address)
  | call (target : Address)
  /-- Jump to `target` plus register 0. -/
  | jumpOffset (target : Address)
  | skipIf (c : Condition)
  | setByte (x : Reg) (k : UInt8)
  | addByte (x : Reg) (k : UInt8)
  | combine (f : Combine) (x y : Reg)
  | setIndex (target : Address)
  | addIndex (x : Reg)
  | pointAtDigit (x : Reg)
  | random (x : Reg) (mask : UInt8)
  | draw (x y : Reg) (rows : Fin 16)
  | readDelay (x : Reg)
  | writeDelay (x : Reg)
  | beep (x : Reg)
  | awaitKey (x : Reg)
  /-- Store the decimal digits of a register. -/
  | storeDigits (x : Reg)
  | save (x : Reg)
  | restore (x : Reg)
  deriving DecidableEq, Repr

end ChipEight
