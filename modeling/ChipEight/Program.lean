import ChipEight.CommandLine.Help
import ChipEight.CommandLine.Reader
import ChipEight.Session

namespace ChipEight

/-!
# The program

The program as a function: from a command line, and what it finds outside, to what it
prints and the code it leaves with.
-/

/-- What a program leaves behind when it is over. -/
structure Exit where
  code : UInt8
  out : String
  err : String
  deriving DecidableEq, Repr

/-- What a program finds outside. -/
structure World where
  file : String → Except String (List UInt8)
  entropy : Generator
  cycles : Nat → Cycle

namespace Exit

def ofStop : CommandLine.Stop → Exit
  | .summary => ⟨0, CommandLine.summaryText, ""⟩
  | .help => ⟨0, CommandLine.helpText, ""⟩
  | .version => ⟨0, CommandLine.versionText, ""⟩
  | .refused r => ⟨2, "", r.printedHeadline ++ "\n\nFor more information, try '--help'.\n"⟩

def ofResult : Except Failure Unit → Exit
  | .ok () => ⟨0, "", ""⟩
  | .error e => ⟨1, "", e.report⟩

end Exit

namespace CommandLine.Request

def generator (r : Request) (entropy : Generator) : Generator :=
  match r.seed with
  | some seed => .ofSeed seed
  | none => entropy

def setup (r : Request) (file : Except String (List UInt8)) (entropy : Generator) : Setup :=
  ⟨r.scale.toNat, r.path, file, r.generator entropy⟩

end CommandLine.Request

/-- Run the program, for at most `limit` cycles; `none` if it is not over by then. -/
def World.run (w : World) (limit : Nat) (words : List String) : Option Exit :=
  match CommandLine.read words with
  | .error stop => some (.ofStop stop)
  | .ok r => ((r.setup (w.file r.path) w.entropy).run w.cycles limit).result.map .ofResult

end ChipEight
