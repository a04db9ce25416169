import ChipEight.Machine
import ChipEight.Proofs.Trapping.Arithmetic

namespace ChipEight.Trapping

/-!
# The machine in guarded arithmetic

The machine made of bytes, words and vectors of them only. The depth of the call stack is
a byte like any other, the fields of a word are bytes that are taken out by shifts and
masks, and the screen is stored pixel by pixel. Every sum, difference and product that is
not meant to wrap around is guarded, and so is every access to a vector. Shifts by a fixed
number of places and remainders by a fixed size need no guard. The log is left out.
-/

/-- Rows of pixels, from top to bottom and each from left to right. -/
abbrev Pixels := Vector (Vector Bool 64) 32

namespace Field

def group (w : Word) : UInt8 := (w >>> 12).toUInt8

def x (w : Word) : UInt8 := (w >>> 8 &&& 0x0F).toUInt8

def y (w : Word) : UInt8 := (w >>> 4 &&& 0x0F).toUInt8

def n (w : Word) : UInt8 := (w &&& 0x000F).toUInt8

def nn (w : Word) : UInt8 := (w &&& 0x00FF).toUInt8

def nnn (w : Word) : UInt16 := w &&& 0x0FFF

end Field

structure State where
  registers : Vector UInt8 16
  index : UInt16
  counter : UInt16
  /-- The number of return addresses on the stack. -/
  depth : UInt8
  slots : Vector UInt16 16
  delay : UInt8
  memory : Vector UInt8 4096
  visible : Pixels
  fading : Pixels
  stale : Bool

namespace Pixels

def unlit : Pixels := Vector.replicate 32 (Vector.replicate 64 false)

/-- Combine two pictures pixel by pixel. -/
def combine (f : Bool → Bool → Bool) (p q : Pixels) : Pixels := p.zipWith (Vector.zipWith f) q

def anyLit (p : Pixels) : Bool := p.any fun row => row.any id

def pixel (p : Pixels) (x y : Nat) : Guarded Bool := do lookup (← lookup p y) x

def light (p : Pixels) (x y : Nat) : Guarded Pixels := do
  update p y (← update (← lookup p y) x true)

end Pixels

namespace State

def powerOn : Guarded State := do
  let stop ← addSize Font.base Font.sheet.length
  let memory ← copyInto (Vector.replicate 4096 0) Font.base stop Font.sheet
  return {
    registers := Vector.replicate 16 0
    index := 0
    counter := UInt16.ofNat programStart
    depth := 0
    slots := Vector.replicate 16 0
    delay := 0
    memory
    visible := Pixels.unlit
    fading := Pixels.unlit
    stale := true }

def read (s : State) (a : UInt16) : Guarded UInt8 := lookup s.memory (a.toNat % 4096)

def write (s : State) (a : UInt16) (b : UInt8) : Guarded State := do
  return { s with memory := ← update s.memory (a.toNat % 4096) b }

def register (s : State) (x : UInt8) : Guarded UInt8 := lookup s.registers x.toNat

def setRegister (s : State) (x b : UInt8) : Guarded State := do
  return { s with registers := ← update s.registers x.toNat b }

def fetch (s : State) : Guarded Word := do
  let high ← s.read s.counter
  let low ← s.read (s.counter + 1)
  return high.toUInt16 <<< 8 ||| low.toUInt16

/-- Store `count` bytes from the index register on. -/
def storeEach (s : State) (count : Nat) (byte : Nat → Guarded UInt8) : Guarded State :=
  (List.range count).foldlM (fun t k => do t.write (s.index + UInt16.ofNat k) (← byte k)) s

end State

/-- The screen while a sprite is being drawn. -/
@[ext] structure Canvas where
  visible : Pixels
  fading : Pixels
  stale : Bool
  /-- Whether a lit pixel has been turned off. -/
  collision : Bool

namespace Canvas

/-- The screen without the pixels that were fading. -/
def flushed (s : State) : Canvas where
  visible := s.visible.combine (fun lit fading => lit && !fading) s.fading
  fading := Pixels.unlit
  stale := s.stale || (s.visible.combine (· && ·) s.fading).anyLit
  collision := false

/-- Draw one of the bits of a sprite row. -/
def plot (x y : Nat) (row : UInt8) (c : Canvas) (bit : Nat) : Guarded Canvas := do
  let column := (← addSize x bit) % 64
  let on := (← shiftRight8 row (← subSize 7 bit)) &&& 1 == 1
  let old ← c.visible.pixel column y
  let new := old ^^ on
  let stale := c.stale || new != old
  let collision := c.collision || old && !new
  if new then return { c with visible := ← c.visible.light column y, stale, collision }
  else return { c with fading := ← c.fading.light column y, stale, collision }

/-- Draw one of the rows of the sprite that the index register points at. -/
def plotRow (s : State) (x y : Nat) (c : Canvas) (k : Nat) : Guarded Canvas := do
  let row ← s.read (s.index + UInt16.ofNat k)
  let y := (← addSize y k) % 32
  (List.range 8).foldlM (plot x y row) c

end Canvas

/-- What an operation may use besides the state. -/
structure Context where
  keys : Keypad
  random : Generator

structure Effect where
  state : State
  random : Generator
  beep : Option UInt8 := none

/-- What is done for a word once the program counter has passed it. -/
abbrev Operation := Word → Context → State → Guarded (Except Fault Effect)

namespace Operation

def finish (c : Context) (s : State) : Except Fault Effect := .ok { state := s, random := c.random }

/-- Skip the next word under a condition. -/
def skip (condition : Word → Context → State → Guarded Bool) : Operation := fun w c s => do
  let counter := if ← condition w c s then s.counter + 2 else s.counter
  return finish c { s with counter }

/-- Set register `X`. -/
def assign (value : Word → State → Guarded UInt8) : Operation := fun w c s => do
  return finish c (← s.setRegister (Field.x w) (← value w s))

/-- Set register `X`, and after that the flag register. -/
def assignFlagged (value : Word → State → Guarded (UInt8 × UInt8)) : Operation := fun w c s => do
  let (result, flag) ← value w s
  let t ← s.setRegister (Field.x w) result
  return finish c (← t.setRegister 0xF flag)

/-- The value of register `X`. -/
def vx (w : Word) (s : State) : Guarded UInt8 := s.register (Field.x w)

/-- The value of register `Y`. -/
def vy (w : Word) (s : State) : Guarded UInt8 := s.register (Field.y w)

def clear : Operation := fun _ c s =>
  .ok (finish c { s with visible := Pixels.unlit, fading := Pixels.unlit, stale := true })

def ret : Operation := fun _ c s => do
  if s.depth = 0 then return .error .stackUnderflow
  let depth := s.depth - 1
  return finish c { s with counter := ← lookup s.slots depth.toNat, depth }

def jump : Operation := fun w c s => .ok (finish c { s with counter := Field.nnn w })

def call : Operation := fun w c s => do
  if 16 ≤ s.depth.toNat then return .error .stackOverflow
  let slots ← update s.slots s.depth.toNat s.counter
  return finish c { s with counter := Field.nnn w, depth := ← add8 s.depth 1, slots }

def skipEqualsByte : Operation := skip fun w _ s => do return (← vx w s) == Field.nn w

def skipDiffersByte : Operation := skip fun w _ s => do return (← vx w s) != Field.nn w

def skipEqualsReg : Operation := skip fun w _ s => do return (← vx w s) == (← vy w s)

def skipDiffersReg : Operation := skip fun w _ s => do return (← vx w s) != (← vy w s)

def skipKeyHeld : Operation := skip fun w c s => do return c.keys.holdsCode (← vx w s)

def skipKeyFree : Operation := skip fun w c s => do return !c.keys.holdsCode (← vx w s)

def setByte : Operation := assign fun w _ => .ok (Field.nn w)

def addByte : Operation := assign fun w s => do return (← vx w s) + Field.nn w

def copy : Operation := assign vy

def or : Operation := assign fun w s => do return (← vx w s) ||| (← vy w s)

def and : Operation := assign fun w s => do return (← vx w s) &&& (← vy w s)

def xor : Operation := assign fun w s => do return (← vx w s) ^^^ (← vy w s)

def readDelay : Operation := assign fun _ s => .ok s.delay

/-- A sum modulo 256 and whether there was a carry. -/
def add : Operation := assignFlagged fun w s => do
  let a ← vx w s
  let b ← vy w s
  return (a + b, (decide (256 ≤ a.toNat + b.toNat)).toUInt8)

/-- A difference modulo 256 and whether there was no borrow. -/
def subtract : Operation := assignFlagged fun w s => do
  let a ← vx w s
  let b ← vy w s
  return (a - b, (!decide (a < b)).toUInt8)

def subtractFrom : Operation := assignFlagged fun w s => do
  let b ← vy w s
  let a ← vx w s
  return (b - a, (!decide (b < a)).toUInt8)

def shiftRight : Operation := assignFlagged fun w s => do
  let a ← vx w s
  return (a >>> 1, a &&& 0x1)

def shiftLeft : Operation := assignFlagged fun w s => do
  let a ← vx w s
  return (a <<< 1, a >>> 7)

def setIndex : Operation := fun w c s => .ok (finish c { s with index := Field.nnn w })

def jumpOffset : Operation := fun w c s => do
  let base ← lookup s.registers 0
  return finish c { s with counter := ← add16 base.toUInt16 (Field.nnn w) }

def random : Operation := fun w c s => do
  let t ← s.setRegister (Field.x w) (c.random.peek &&& Field.nn w)
  return .ok { state := t, random := c.random.next }

def draw : Operation := fun w c s => do
  let x ← vx w s
  let y ← vy w s
  let canvas ← (List.range (Field.n w).toNat).foldlM (Canvas.plotRow s x.toNat y.toNat)
    (Canvas.flushed s)
  let t ← s.setRegister 0xF canvas.collision.toUInt8
  return finish c
    { t with visible := canvas.visible, fading := canvas.fading, stale := canvas.stale }

def awaitKey : Operation := fun w c s => do
  match c.keys.least? with
  | some k => return finish c (← s.setRegister (Field.x w) (UInt8.ofNat k.val))
  | none => return finish c { s with counter := s.counter - 2 }

def writeDelay : Operation := fun w c s => do return finish c { s with delay := ← vx w s }

def beep : Operation := fun w c s => do
  return .ok { state := s, random := c.random, beep := some (← vx w s) }

def addIndex : Operation := fun w c s => do
  return finish c { s with index := s.index + (← vx w s).toUInt16 }

def pointAtDigit : Operation := fun w c s => do
  let offset ← mul16 (← vx w s).toUInt16 (UInt16.ofNat Font.glyphHeight)
  return finish c { s with index := ← add16 (UInt16.ofNat Font.base) offset }

def storeDigits : Operation := fun w c s => do
  let value ← vx w s
  let digits := #v[value / 100, value / 10 % 10, value % 10]
  return finish c (← s.storeEach 3 (lookup digits))

def save : Operation := fun w c s => do
  return finish c (← s.storeEach ((Field.x w).toNat + 1) (lookup s.registers))

def restore : Operation := fun w c s => do
  let registers ← (List.range ((Field.x w).toNat + 1)).foldlM
    (fun v k => do update v k (← s.read (s.index + UInt16.ofNat k))) s.registers
  return finish c { s with registers }

def ofSystemByte? (y n : Nat) : Option Operation :=
  match y, n with
  | 0xE, 0x0 => some clear
  | 0xE, 0xE => some ret
  | _, _ => none

def ofDigit? (n : Nat) : Option Operation :=
  match n with
  | 0x0 => some copy
  | 0x1 => some or
  | 0x2 => some and
  | 0x3 => some xor
  | 0x4 => some add
  | 0x5 => some subtract
  | 0x6 => some shiftRight
  | 0x7 => some subtractFrom
  | 0xE => some shiftLeft
  | _ => none

def ofKeyByte? (y n : Nat) : Option Operation :=
  match y, n with
  | 0x9, 0xE => some skipKeyHeld
  | 0xA, 0x1 => some skipKeyFree
  | _, _ => none

def ofDeviceByte? (y n : Nat) : Option Operation :=
  match y, n with
  | 0x0, 0x7 => some readDelay
  | 0x0, 0xA => some awaitKey
  | 0x1, 0x5 => some writeDelay
  | 0x1, 0x8 => some beep
  | 0x1, 0xE => some addIndex
  | 0x2, 0x9 => some pointAtDigit
  | 0x3, 0x3 => some storeDigits
  | 0x5, 0x5 => some save
  | 0x6, 0x5 => some restore
  | _, _ => none

/-- The operation that the digits of a word select. -/
def ofWord? (w : Word) : Option Operation :=
  let y := (Field.y w).toNat
  let n := (Field.n w).toNat
  match (Field.group w).toNat with
  | 0x0 => ofSystemByte? y n
  | 0x1 => some jump
  | 0x2 => some call
  | 0x3 => some skipEqualsByte
  | 0x4 => some skipDiffersByte
  | 0x5 => some skipEqualsReg
  | 0x6 => some setByte
  | 0x7 => some addByte
  | 0x8 => ofDigit? n
  | 0x9 => some skipDiffersReg
  | 0xA => some setIndex
  | 0xB => some jumpOffset
  | 0xC => some random
  | 0xD => some draw
  | 0xE => ofKeyByte? y n
  | 0xF => ofDeviceByte? y n
  | _ => none

end Operation

structure Machine where
  state : State
  keys : Keypad
  random : Generator

/-- The answer to a command that did not trap. -/
structure Reply where
  machine : Machine
  beeps : List UInt8
  frames : List Pixels
  result : Except Fault Unit

namespace Machine

def powerOn (random : Generator) : Guarded Machine := do return ⟨← State.powerOn, .free, random⟩

def reset (m : Machine) : Guarded Reply := do
  return ⟨{ m with state := ← State.powerOn }, [], [], .ok ()⟩

def load (program : List UInt8) (m : Machine) : Guarded Reply := do
  if programRoom < program.length then
    return ⟨m, [], [], .error (.programTooLarge program.length programRoom)⟩
  let s ← State.powerOn
  let stop ← addSize programStart program.length
  let memory ← copyInto s.memory programStart stop program
  return ⟨{ m with state := { s with memory } }, [], [], .ok ()⟩

def past (m : Machine) : Machine :=
  { m with state := { m.state with counter := m.state.counter + 2 } }

def perform (m : Machine) (w : Word) (operation : Operation) : Guarded Reply := do
  match ← operation w ⟨m.keys, m.random⟩ m.past.state with
  | .error f => return ⟨m.past, [], [], .error f⟩
  | .ok e => return ⟨{ m with state := e.state, random := e.random }, e.beep.toList, [], .ok ()⟩

def step (m : Machine) : Guarded Reply := do
  let w ← m.state.fetch
  match Operation.ofWord? w with
  | none => return ⟨m.past, [], [], .error (.invalidInstruction w m.state.counter)⟩
  | some operation => m.perform w operation

def tick (m : Machine) : Reply :=
  let s := { m.state with delay := if m.state.delay = 0 then 0 else m.state.delay - 1 }
  if s.stale then ⟨{ m with state := { s with stale := false } }, [], [s.visible], .ok ()⟩
  else ⟨{ m with state := s }, [], [], .ok ()⟩

def setKey (code : UInt8) (down : Bool) (m : Machine) : Reply :=
  match Keypad.key? code with
  | some k => ⟨{ m with keys := m.keys.set k down }, [], [], .ok ()⟩
  | none => ⟨m, [], [], .error (.invalidKey code)⟩

def obey (m : Machine) : Command → Guarded Reply
  | .load program => m.load program
  | .reset => m.reset
  | .step => m.step
  | .tick => .ok m.tick
  | .press code => .ok (m.setKey code true)
  | .release code => .ok (m.setKey code false)

/-- The answers to commands in order, or the first trap. -/
def replies (m : Machine) : List Command → Guarded (List Reply)
  | [] => .ok []
  | c :: rest => do
    let r ← m.obey c
    return r :: (← r.machine.replies rest)

/-- The answers of a machine from power-on on. -/
def session (random : Generator) (commands : List Command) : Guarded (List Reply) := do
  (← powerOn random).replies commands

end Machine

end ChipEight.Trapping
