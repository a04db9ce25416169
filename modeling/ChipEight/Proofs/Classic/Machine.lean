import ChipEight.Proofs.Machine.Outputs
import ChipEight.Proofs.Memory.Wrapping

namespace ChipEight.Classic

/-!
# A machine with a single screen

The machine without fading: its screen is one set of lit pixels, which a clear makes
empty and a sprite turns over one by one. In all else it does what the machine does.
Handing out frames is left out.
-/

abbrev Pixel := Fin 64 × Fin 32

abbrev Pixels := Pixel → Bool

def toggle (lit : Pixels) (p : Pixel) : Pixels := fun q => if q = p then !lit q else lit q

/-- The pixels of a sprite of `rows` bytes: the set bits of byte `r`, counted from the most
significant, lie in row `y + r` from column `x` on. -/
def dots (memory : Memory) (address x y rows : Nat) : List Pixel :=
  (List.range rows).flatMap fun r =>
    ((List.range 8).filter fun b => (memory.byteAt (address + r)).toNat.testBit (7 - b)).map
      fun b => (⟨(x + b) % 64, Nat.mod_lt _ (by decide)⟩, ⟨(y + r) % 32, Nat.mod_lt _ (by decide)⟩)

structure State where
  registers : Registers
  index : UInt16
  counter : UInt16
  calls : CallStack
  delay : UInt8
  memory : Memory
  screen : Pixels

structure Machine where
  state : State
  keys : Keypad
  random : Generator

structure Reply where
  machine : Machine
  output : List Output
  result : Except Fault Unit

namespace State

def ofCore (s : ChipEight.State) (screen : Pixels) : State :=
  ⟨s.registers, s.index, s.counter, s.calls, s.delay, s.memory, screen⟩

/-- What a state holds apart from its screen, before a dark one. -/
def core (c : State) : ChipEight.State :=
  ⟨c.registers, c.index, c.counter, c.calls, c.delay, c.memory, .dark⟩

def clear (c : State) : State := { c with screen := fun _ => false }

def draw (c : State) (x y : Reg) (rows : Fin 16) : State :=
  let touched :=
    dots c.memory c.index.toNat (c.registers.get x).toNat (c.registers.get y).toNat rows.val
  { c with
    registers := c.registers.set flag.val (touched.any c.screen).toUInt8 flag.isLt
    screen := touched.foldl toggle c.screen }

end State

namespace Reply

def records (r : Reply) : List Log.Record := r.output.filterMap Output.record?

def beeps (r : Reply) : List UInt8 := r.output.filterMap Output.beep?

end Reply

namespace Machine

def powerOn (random : Generator) : Machine := ⟨.ofCore .powerOn fun _ => false, .free, random⟩

def reset (m : Machine) : Reply :=
  ⟨{ m with state := .ofCore .powerOn fun _ => false }, [.record .reset], .ok ()⟩

def load (program : List UInt8) (m : Machine) : Reply :=
  if program.length ≤ programRoom then
    ⟨{ m with state := .ofCore (.withProgram program) fun _ => false },
      [.record .reset, .record (.loaded program.length)], .ok ()⟩
  else ⟨m, [], .error (.programTooLarge program.length programRoom)⟩

def fetch (m : Machine) : Word := m.state.memory.wordAt m.state.counter.toNat

def past (m : Machine) : Machine :=
  { m with state := { m.state with counter := m.state.counter + 2 } }

def fetched (m : Machine) : Output :=
  .record (.fetched m.fetch m.state.counter m.state.registers m.state.index)

def reject (m : Machine) : Reply :=
  ⟨m.past, [m.fetched, .record (.rejected m.fetch m.state.counter)],
    .error (.invalidInstruction m.fetch m.state.counter)⟩

/-- Execute an instruction on all of the state but the screen. -/
def performCore (m : Machine) (i : Instruction) : Reply :=
  match i.execute m.keys m.random m.past.state.core with
  | .error f => ⟨m.past, [m.fetched], .error f⟩
  | .ok e => ⟨⟨.ofCore e.state m.state.screen, m.keys, e.random⟩, m.fetched :: e.output, .ok ()⟩

def perform (m : Machine) : Instruction → Reply
  | .clear => ⟨{ m.past with state := m.past.state.clear }, [m.fetched], .ok ()⟩
  | .draw x y rows => ⟨{ m.past with state := m.past.state.draw x y rows }, [m.fetched], .ok ()⟩
  | i => m.performCore i

def step (m : Machine) : Reply :=
  match Instruction.ofWord? m.fetch with
  | none => m.reject
  | some i => m.perform i

def tick (m : Machine) : Reply :=
  ⟨{ m with state := { m.state with delay := if m.state.delay = 0 then 0 else m.state.delay - 1 } },
    [], .ok ()⟩

def setKey (code : UInt8) (down : Bool) (m : Machine) : Reply :=
  match Keypad.key? code with
  | some k => ⟨{ m with keys := m.keys.set k down }, [], .ok ()⟩
  | none => ⟨m, [], .error (.invalidKey code)⟩

def obey (m : Machine) : Command → Reply
  | .load program => m.load program
  | .reset => m.reset
  | .step => m.step
  | .tick => m.tick
  | .press code => m.setKey code true
  | .release code => m.setKey code false

def after (m : Machine) (commands : List Command) : Machine :=
  commands.foldl (fun m c => (m.obey c).machine) m

def drawnBy (m : Machine) (c : Command) : List UInt8 :=
  m.random.bytesUntil (m.obey c).machine.random

end Machine

end ChipEight.Classic
