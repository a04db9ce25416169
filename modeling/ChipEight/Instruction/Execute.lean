import ChipEight.Fault
import ChipEight.Instruction
import ChipEight.Keypad
import ChipEight.Random.Generator
import ChipEight.State

namespace ChipEight

/-!
# Executing an instruction

An instruction turns a state into a state. It may look at the keys and draw from the
random number generator, and it may ask for a beep or report that it is waiting. By
the time it runs the program counter has passed it.
-/

namespace Condition

def holds (keys : Keypad) (s : State) : Condition → Bool
  | equalsByte x k => s.reg x == k
  | differsByte x k => s.reg x != k
  | equalsReg x y => s.reg x == s.reg y
  | differsReg x y => s.reg x != s.reg y
  | keyHeld x => keys.holdsCode (s.reg x)
  | keyFree x => !keys.holdsCode (s.reg x)

end Condition

namespace Combine

def result (a b : UInt8) : Combine → UInt8
  | copy => b
  | or => a ||| b
  | and => a &&& b
  | xor => a ^^^ b
  | add => a + b
  | subtract => a - b
  | shiftRight => a >>> 1
  | subtractFrom => b - a
  | shiftLeft => a <<< 1

/-- What the flag register is told: the carry of a sum, the absence of a borrow, or the bit
shifted out. -/
def flag? (a b : UInt8) : Combine → Option Bool
  | copy | or | and | xor => none
  | add => some (decide (256 ≤ a.toNat + b.toNat))
  | subtract => some (decide (b ≤ a))
  | shiftRight => some (decide (a.toNat % 2 = 1))
  | subtractFrom => some (decide (a ≤ b))
  | shiftLeft => some (decide (128 ≤ a.toNat))

end Combine

def decimalDigits (b : UInt8) : List UInt8 := [b / 100, b / 10 % 10, b % 10]

namespace State

/-- Combine two registers into the first one. The flag is written last, so it is what the flag
register holds even if that is also the destination. -/
def combine (s : State) (f : Combine) (x y : Reg) : State :=
  let a := s.reg x
  let b := s.reg y
  let t := s.setReg x (f.result a b)
  match f.flag? a b with
  | some c => t.setReg flag c.toUInt8
  | none => t

def draw (s : State) (x y : Reg) (rows : Fin 16) : State :=
  let column := (s.reg x).toNat
  let row := (s.reg y).toNat
  let sprite := s.memory.readList s.index rows.val
  { s.setReg flag (s.screen.collides column row sprite).toUInt8 with
    screen := s.screen.draw column row sprite }

end State

/-- What an executed instruction leaves behind. -/
structure Effect where
  state : State
  random : Generator
  /-- The length of a beep in milliseconds. -/
  beep : Option UInt8 := none
  awaits : Option Reg := none

namespace Instruction

def execute (keys : Keypad) (random : Generator) (s : State) : Instruction → Except Fault Effect
  | .clear => .ok { state := { s with screen := .dark }, random }
  | .ret =>
    match s.calls.pop? with
    | some (back, calls) => .ok { state := { s with counter := back, calls }, random }
    | none => .error .stackUnderflow
  | .jump target => .ok { state := { s with counter := UInt16.ofNat target.val }, random }
  | .call target =>
    match s.calls.push? s.counter with
    | some calls => .ok { state := { s with counter := UInt16.ofNat target.val, calls }, random }
    | none => .error .stackOverflow
  | .jumpOffset target =>
    .ok { state := { s with counter := UInt16.ofNat ((s.reg offset).toNat + target.val) }, random }
  | .skipIf c => .ok { state := s.advanceIf (c.holds keys s), random }
  | .setByte x k => .ok { state := s.setReg x k, random }
  | .addByte x k => .ok { state := s.setReg x (s.reg x + k), random }
  | .combine f x y => .ok { state := s.combine f x y, random }
  | .setIndex target => .ok { state := { s with index := UInt16.ofNat target.val }, random }
  | .addIndex x => .ok { state := { s with index := s.index + (s.reg x).toUInt16 }, random }
  | .pointAtDigit x => .ok { state := { s with index := Font.glyphAddress (s.reg x) }, random }
  | .random x mask => .ok { state := s.setReg x (random.peek &&& mask), random := random.next }
  | .draw x y rows => .ok { state := s.draw x y rows, random }
  | .readDelay x => .ok { state := s.setReg x s.delay, random }
  | .writeDelay x => .ok { state := { s with delay := s.reg x }, random }
  | .beep x => .ok { state := s, random, beep := some (s.reg x) }
  | .awaitKey x =>
    match keys.least? with
    | some k => .ok { state := s.setReg x (UInt8.ofNat k.val), random }
    | none => .ok { state := s.rewind, random, awaits := some x }
  | .storeDigits x =>
    .ok { state := { s with memory := s.memory.writeList s.index (decimalDigits (s.reg x)) },
          random }
  | .save x =>
    .ok { state := { s with memory := s.memory.writeList s.index (s.regsUpTo x) }, random }
  | .restore x => .ok { state := s.loadRegs x, random }

end Instruction

end ChipEight
