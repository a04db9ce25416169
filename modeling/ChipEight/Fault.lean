import ChipEight.Text.Numeral
import ChipEight.Word

namespace ChipEight

/-!
# Faults

Everything a command of the machine can be refused for, with the one wording each
cause has.
-/

inductive Fault
  | invalidInstruction (word : Word) (address : UInt16)
  /-- A program of `size` bytes where only `room` fit. -/
  | programTooLarge (size room : Nat)
  | stackOverflow
  | stackUnderflow
  | invalidKey (code : UInt8)
  deriving DecidableEq, Repr

namespace Fault

open Numeral

def message : Fault → String
  | invalidInstruction word address =>
    "instruction " ++ prefixedHex 4 word.toNat ++ " at " ++ prefixedHex 3 address.toNat ++
      " is not valid"
  | programTooLarge size room =>
    "program is " ++ decimal size ++ " bytes but only " ++ decimal room ++
      " bytes are available"
  | stackOverflow => "call stack overflow: subroutines nested too deeply"
  | stackUnderflow => "call stack underflow: return with no active subroutine"
  | invalidKey code => "key " ++ prefixedHex 2 code.toNat ++ " is not on the keypad"

end Fault

end ChipEight
