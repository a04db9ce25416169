import ChipEight.Program

/-!
# The command line program

Reads the command line and the program file, and keeps the session at the pace of the
clock on the wall. Everything else is decided elsewhere.
-/

namespace ChipEight

/-- The reason for which a file cannot be read. -/
def reasonOf : IO.Error → String
  | .noFileOrDirectory .. => "No such file or directory (os error 2)"
  | .permissionDenied .. => "Permission denied (os error 13)"
  | .inappropriateType .. => "Is a directory (os error 21)"
  | e => toString e

def fileContents (path : String) : IO (Except String (List UInt8)) := do
  try
    let contents ← IO.FS.readBinFile path
    return .ok contents.toList
  catch e => return .error (reasonOf e)

/-- Step once in `pause` nanoseconds, and let the timers tick whenever `tick` nanoseconds have
passed since the last tick. -/
partial def keepPace (pause tick : Nat) (s : Session .software) (lastTick : Nat) :
    IO (Except Failure Unit) := do
  let begun ← IO.monoNanosNow
  match s.cycle ⟨[], 0⟩ with
  | (_, some .left) => return .ok ()
  | (_, some (.halted f)) => return .error (.fault f)
  | (s, none) =>
    let due := ((← IO.monoNanosNow) - lastTick) / tick
    let s := s.tickTimes due
    let elapsed := (← IO.monoNanosNow) - begun
    IO.sleep (UInt32.ofNat ((pause - elapsed) / 1000000))
    keepPace pause tick s (lastTick + due * tick)

def runRequest (r : CommandLine.Request) : IO (Except Failure Unit) := do
  let file ← fileContents r.path
  let entropy ← IO.rand 0 (UInt64.size - 1)
  let setup := r.setup file (.ofSeed (UInt64.ofNat entropy))
  match Window.make setup.scale with
  | .error e => return .error (.window e)
  | .ok window =>
    match Session.readFile ⟨.powerOn setup.random, window, #[]⟩ setup with
    | (_, .error e) => return .error e
    | (s, .ok ()) =>
      let second := 1000000000
      keepPace (second / max r.clock.toNat 1) (second / timerFrequency) s (← IO.monoNanosNow)

end ChipEight

open ChipEight

def main (words : List String) : IO UInt32 := do
  let exit ← match CommandLine.read words with
    | .error stop => pure (Exit.ofStop stop)
    | .ok r => do pure (Exit.ofResult (← runRequest r))
  IO.print exit.out
  IO.eprint exit.err
  return exit.code.toUInt32
