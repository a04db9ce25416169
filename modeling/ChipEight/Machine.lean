import ChipEight.Instruction.Decode
import ChipEight.Instruction.Execute
import ChipEight.Log

namespace ChipEight

/-!
# The machine

The processor's state together with the keypad and the random number generator, and
the six commands it obeys. A command gives a reply: the machine afterwards, what the
machine let out meanwhile, in order, and whether the command was refused.
-/

def timerFrequency : Nat := 60

structure Machine where
  state : State
  keys : Keypad
  random : Generator
  deriving DecidableEq

/-- What a machine lets out. -/
inductive Output
  | record (r : Log.Record)
  | beep (duration : UInt8)
  | frame (pixels : Grid)
  deriving DecidableEq

inductive Command
  | load (program : List UInt8)
  | reset
  | step
  | tick
  | press (code : UInt8)
  | release (code : UInt8)
  deriving DecidableEq, Repr

/-- The answer to a command. -/
structure Reply where
  machine : Machine
  output : List Output
  result : Except Fault Unit

def Effect.output (e : Effect) : List Output :=
  (e.beep.map Output.beep).toList ++ (e.awaits.map fun x => .record (.waiting x)).toList

namespace Machine

def powerOn (random : Generator) : Machine := ⟨.powerOn, .free, random⟩

/-- Back to power-on. Held keys stay held and the random number generator goes on. -/
def reset (m : Machine) : Reply :=
  ⟨{ m with state := .powerOn }, [.record .reset], .ok ()⟩

/-- Put a program into a machine at power-on; one that is too long changes nothing. -/
def load (program : List UInt8) (m : Machine) : Reply :=
  if program.length ≤ programRoom then
    ⟨{ m with state := .withProgram program },
      [.record .reset, .record (.loaded program.length)], .ok ()⟩
  else ⟨m, [], .error (.programTooLarge program.length programRoom)⟩

/-- The machine with its program counter behind the word it points at. -/
def past (m : Machine) : Machine := { m with state := m.state.advance }

def fetched (m : Machine) : Output :=
  .record (.fetched m.state.fetch m.state.counter m.state.registers m.state.index)

def reject (m : Machine) : Reply :=
  ⟨m.past, [m.fetched, .record (.rejected m.state.fetch m.state.counter)],
    .error (.invalidInstruction m.state.fetch m.state.counter)⟩

def perform (m : Machine) (i : Instruction) : Reply :=
  match i.execute m.keys m.random m.past.state with
  | .error f => ⟨m.past, [m.fetched], .error f⟩
  | .ok e =>
    ⟨{ m with state := e.state, random := e.random }, m.fetched :: e.output, .ok ()⟩

/-- Execute what the program counter points at. If that is refused, the program counter stays
behind it and nothing else changes. -/
def step (m : Machine) : Reply :=
  match Instruction.ofWord? m.state.fetch with
  | none => m.reject
  | some i => m.perform i

/-- Count the delay timer down, and hand out the screen if it has changed. -/
def tick (m : Machine) : Reply :=
  if m.state.screen.stale then
    ⟨{ m with state := m.state.countDown.shown }, [.frame m.state.screen.visible], .ok ()⟩
  else ⟨{ m with state := m.state.countDown }, [], .ok ()⟩

def setKey (code : UInt8) (down : Bool) (m : Machine) : Reply :=
  match Keypad.key? code with
  | some k => ⟨{ m with keys := m.keys.set k down }, [], .ok ()⟩
  | none => ⟨m, [], .error (.invalidKey code)⟩

def obey (m : Machine) : Command → Reply
  | .load program => m.load program
  | .reset => m.reset
  | .step => m.step
  | .tick => m.tick
  | .press code => m.setKey code true
  | .release code => m.setKey code false

def after (m : Machine) (commands : List Command) : Machine :=
  commands.foldl (fun m c => (m.obey c).machine) m

def replies (m : Machine) : List Command → List Reply
  | [] => []
  | c :: rest => let r := m.obey c; r :: r.machine.replies rest

theorem load_of_le {program : List UInt8} (fits : program.length ≤ programRoom) (m : Machine) :
    m.load program = ⟨{ m with state := .withProgram program },
      [.record .reset, .record (.loaded program.length)], .ok ()⟩ :=
  if_pos fits

theorem load_of_lt {program : List UInt8} (large : programRoom < program.length) (m : Machine) :
    m.load program = ⟨m, [], .error (.programTooLarge program.length programRoom)⟩ :=
  if_neg (Nat.not_le.mpr large)

theorem step_of_none {m : Machine} (h : Instruction.ofWord? m.state.fetch = none) :
    m.step = m.reject := by
  simp [step, h]

theorem step_of_some {m : Machine} {i : Instruction}
    (h : Instruction.ofWord? m.state.fetch = some i) : m.step = m.perform i := by
  simp [step, h]

theorem perform_of_error {m : Machine} {i : Instruction} {f : Fault}
    (h : i.execute m.keys m.random m.past.state = .error f) :
    m.perform i = ⟨m.past, [m.fetched], .error f⟩ := by
  simp [perform, h]

theorem perform_of_ok {m : Machine} {i : Instruction} {e : Effect}
    (h : i.execute m.keys m.random m.past.state = .ok e) :
    m.perform i =
      ⟨{ m with state := e.state, random := e.random }, m.fetched :: e.output, .ok ()⟩ := by
  simp [perform, h]

@[simp] theorem after_nil (m : Machine) : m.after [] = m := rfl

@[simp] theorem after_cons (m : Machine) (c : Command) (rest : List Command) :
    m.after (c :: rest) = (m.obey c).machine.after rest := rfl

theorem after_append (m : Machine) (first rest : List Command) :
    m.after (first ++ rest) = (m.after first).after rest := by
  simp [after]

@[simp] theorem length_replies (m : Machine) (commands : List Command) :
    (m.replies commands).length = commands.length := by
  induction commands generalizing m with
  | nil => rfl
  | cons c rest ih => simp [replies, ih]

end Machine

end ChipEight
