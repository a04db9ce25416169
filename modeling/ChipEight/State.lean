import ChipEight.CallStack
import ChipEight.Memory
import ChipEight.Screen
import ChipEight.Word

namespace ChipEight

/-!
# The state of the processor

Sixteen byte registers, the last of which also reports carries and collisions; an
index register; the address of the next instruction; the active subroutines; the
delay timer; memory and the screen.
-/

abbrev Registers := Vector UInt8 16

/-- The register that reports carries, borrows and collisions. -/
def flag : Reg := ⟨0xF, by decide⟩

structure State where
  registers : Registers
  index : UInt16
  /-- The address of the next instruction. -/
  counter : UInt16
  calls : CallStack
  delay : UInt8
  memory : Memory
  screen : Screen
  deriving DecidableEq

/-- The register that a jump can start from. -/
def offset : Reg := ⟨0x0, by decide⟩

namespace State

def powerOn : State where
  registers := Vector.replicate 16 0
  index := 0
  counter := UInt16.ofNat programStart
  calls := .empty
  delay := 0
  memory := .powerOn
  screen := .dark

def withProgram (program : List UInt8) : State :=
  { powerOn with memory := .withProgram program }

def reg (s : State) (x : Reg) : UInt8 := s.registers[x]

def setReg (s : State) (x : Reg) (b : UInt8) : State :=
  { s with registers := s.registers.set x.val b x.isLt }

def fetch (s : State) : Word :=
  Word.ofBytes (s.memory.read s.counter) (s.memory.read (s.counter + 1))

def advance (s : State) : State := { s with counter := s.counter + 2 }

def advanceIf (s : State) (c : Bool) : State := if c then s.advance else s

def rewind (s : State) : State := { s with counter := s.counter - 2 }

def countDown (s : State) : State := { s with delay := if s.delay = 0 then 0 else s.delay - 1 }

def shown (s : State) : State := { s with screen := s.screen.shown }

def regsUpTo (s : State) (x : Reg) : List UInt8 := s.registers.toList.take (x.val + 1)

/-- Load registers 0 to `x` from the bytes the index register points at. -/
def loadRegs (s : State) (x : Reg) : State :=
  { s with
    registers := Vector.ofFn fun k =>
      if k.val ≤ x.val then s.memory.read (s.index + UInt16.ofNat k.val) else s.reg k }

theorem reg_setReg (s : State) (x y : Reg) (b : UInt8) :
    (s.setReg x b).reg y = if x = y then b else s.reg y := by
  simp only [reg, setReg, Fin.getElem_fin, Vector.getElem_set, Fin.ext_iff]

@[simp] theorem reg_setReg_self (s : State) (x : Reg) (b : UInt8) :
    (s.setReg x b).reg x = b := by
  simp [reg_setReg]

theorem reg_setReg_of_ne (s : State) {x y : Reg} (h : x ≠ y) (b : UInt8) :
    (s.setReg x b).reg y = s.reg y := by
  simp [reg_setReg, h]

theorem length_regsUpTo (s : State) (x : Reg) : (s.regsUpTo x).length = x.val + 1 := by
  have := x.isLt
  simp only [regsUpTo, List.length_take, Vector.length_toList]
  omega

theorem getElem?_regsUpTo (s : State) (x : Reg) (k : Nat) (b : UInt8) :
    (s.regsUpTo x)[k]? = some b ↔ k ≤ x.val ∧ s.registers[k]? = some b := by
  simp only [regsUpTo, List.getElem?_take, Vector.getElem?_toList, Nat.lt_succ_iff]
  split <;> simp [*]

theorem reg_loadRegs (s : State) (x k : Reg) :
    (s.loadRegs x).reg k =
      if k.val ≤ x.val then s.memory.read (s.index + UInt16.ofNat k.val) else s.reg k := by
  simp [reg, loadRegs]

end State

end ChipEight
