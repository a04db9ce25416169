import ChipEight.Keypad.Layout
import ChipEight.Machine
import ChipEight.Window

namespace ChipEight

/-!
# Sessions

A session opens a window and a program file and then goes through cycles: it takes
the events that have come in, steps the machine, and lets the timers tick as often as
is due. It ends when the user leaves or when a step is refused. How many ticks fall
into a cycle is up to the clock on the wall, so it is a parameter here, and so is the
library that draws the window.
-/

/-- What reaches a session from the outside, keys by their names on the keyboard. -/
inductive Event
  | keyDown (name : String)
  | keyUp (name : String)
  | quit
  deriving DecidableEq, Repr

/-- The events before a step, and the timer ticks after it. -/
structure Cycle where
  events : List Event
  ticks : Nat

inductive Failure
  | window (e : WindowError)
  | unreadable (path reason : String)
  | fault (f : Fault)
  deriving DecidableEq, Repr

namespace Failure

def message : Failure → String
  | window e => e.message
  | unreadable path reason => "unable to read " ++ path ++ ": " ++ reason
  | fault f => f.message

def report : Failure → String
  | window e => "Error: " ++ e.message ++ "\n"
  | unreadable path reason =>
    "Error: unable to read " ++ path ++ "\n\nCaused by:\n    " ++ reason ++ "\n"
  | fault f => "Error: " ++ f.message ++ "\n"

end Failure

structure Setup where
  scale : Nat
  path : String
  file : Except String (List UInt8)
  random : Generator

inductive Ending
  | left
  | halted (f : Fault)
  deriving DecidableEq, Repr

structure Session (G : Graphics) where
  machine : Machine
  window : Window G
  log : Array Log.Record

namespace Session

variable {G : Graphics}

def note (s : Session G) (r : Log.Record) : Session G :=
  if r.atLeast .info then { s with log := s.log.push r } else s

def take (s : Session G) : Output → Session G
  | .record r => s.note r
  | .beep _ => s
  | .frame g =>
    match s.window.present g with
    | (window, none) => { s with window }
    | (window, some reason) => note { s with window } (.notRendered reason)

def obey (s : Session G) (c : Command) : Session G × Except Fault Unit :=
  let reply := s.machine.obey c
  (reply.output.foldl take { s with machine := reply.machine }, reply.result)

/-- Read the program file and load it. -/
def readFile (s : Session G) (setup : Setup) : Session G × Except Failure Unit :=
  match setup.file with
  | .error reason => (s, .error (.unreadable setup.path reason))
  | .ok program =>
    match s.obey (.load program) with
    | (s, .error f) => (s, .error (.fault f))
    | (s, .ok ()) => (s.note (.opened setup.path program.length), .ok ())

/-- The command that an event stands for; `none` if the user leaves. -/
def commands? : Event → Option (List Command)
  | .quit => none
  | .keyDown name =>
    if name = Keypad.quitKey then none
    else some ((Keypad.ofKeyboard? name).toList.map fun k => .press (UInt8.ofNat k.val))
  | .keyUp name =>
    some ((Keypad.ofKeyboard? name).toList.map fun k => .release (UInt8.ofNat k.val))

/-- Take events in order. Gives whether the user leaves; what follows is then not looked at. -/
def takeEvents (s : Session G) : List Event → Session G × Bool
  | [] => (s, false)
  | e :: rest =>
    match commands? e with
    | none => (s, true)
    | some commands => takeEvents (commands.foldl (fun s c => (s.obey c).1) s) rest

def tickTimes (s : Session G) : Nat → Session G
  | 0 => s
  | count + 1 => ((s.obey .tick).1).tickTimes count

def cycle (s : Session G) (c : Cycle) : Session G × Option Ending :=
  match s.takeEvents c.events with
  | (s, true) => (s.note .exiting, some .left)
  | (s, false) =>
    match s.obey .step with
    | (s, .error f) => (s.note (.halting f), some (.halted f))
    | (s, .ok ()) => (s.tickTimes c.ticks, none)

/-- Go through cycles from number `k` on until the session ends, at most `limit` of them. -/
def play (s : Session G) (cycles : Nat → Cycle) (k : Nat) : Nat → Session G × Option Ending
  | 0 => (s, none)
  | limit + 1 =>
    match s.cycle (cycles k) with
    | (s, some ending) => (s, some ending)
    | (s, none) => s.play cycles (k + 1) limit

end Session

structure Report where
  log : List Log.Record
  result : Option (Except Failure Unit)

namespace Setup

/-- A session from its start on, with what has been logged before it. -/
def runFrom (G : Graphics) (log : Array Log.Record) (setup : Setup) (cycles : Nat → Cycle)
    (limit : Nat) : Report :=
  match Window.openOn G setup.scale with
  | .error e => ⟨log.toList, some (.error (.window e))⟩
  | .ok window =>
    match Session.readFile ⟨.powerOn setup.random, window, log⟩ setup with
    | (s, .error e) => ⟨s.log.toList, some (.error e)⟩
    | (s, .ok ()) =>
      match s.play cycles 0 limit with
      | (s, none) => ⟨s.log.toList, none⟩
      | (s, some .left) => ⟨s.log.toList, some (.ok ())⟩
      | (s, some (.halted f)) => ⟨s.log.toList, some (.error (.fault f))⟩

def runOn (G : Graphics) : Setup → (Nat → Cycle) → Nat → Report := runFrom G #[]

def run : Setup → (Nat → Cycle) → Nat → Report := runOn .software

end Setup

end ChipEight
