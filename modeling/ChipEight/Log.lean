import ChipEight.Fault
import ChipEight.State

namespace ChipEight.Log

/-!
# The log

Everything that is reported along the way, as data. A record has a level and a text;
a session shows the records from a level on.
-/

inductive Level
  | error
  | warn
  | info
  | debug
  | trace
  deriving DecidableEq, Repr

namespace Level

/-- The position in the order of importance, starting with the most important level. -/
def rank : Level → Nat
  | error => 1
  | warn => 2
  | info => 3
  | debug => 4
  | trace => 5

def name : Level → String
  | error => "ERROR"
  | warn => "WARN"
  | info => "INFO"
  | debug => "DEBUG"
  | trace => "TRACE"

end Level

inductive Record
  | reset
  | loaded (size : Nat)
  /-- A word was fetched, with the registers as they were. -/
  | fetched (word : Word) (address : UInt16) (registers : Registers) (index : UInt16)
  | rejected (word : Word) (address : UInt16)
  | waiting (x : Reg)
  | opened (path : String) (size : Nat)
  | notRendered (reason : String)
  | halting (cause : Fault)
  | exiting
  deriving DecidableEq

namespace Record

open Numeral

def level : Record → Level
  | reset | loaded _ => .debug
  | fetched .. | waiting _ => .trace
  | rejected .. | notRendered _ => .warn
  | opened .. | exiting => .info
  | halting _ => .error

def text : Record → String
  | reset => "reset"
  | loaded size => "loaded " ++ decimal size ++ " byte program"
  | fetched word address registers index =>
    hex 4 word.toNat ++ " pc" ++ hex 4 address.toNat ++ " v[" ++
      String.intercalate ", " (registers.toList.map fun b => hex 2 b.toNat) ++
      "] i" ++ hex 4 index.toNat
  | rejected word address => "rejected " ++ hex 4 word.toNat ++ " at " ++ hex 4 address.toNat
  | waiting x => "waiting on a key press for V" ++ hex 1 x.val
  | opened path size => "loaded " ++ path ++ " (" ++ decimal size ++ " bytes)"
  | notRendered reason => "failed to render frame: " ++ reason
  | halting cause => "halting: " ++ cause.message
  | exiting => "exiting"

def atLeast (least : Level) (r : Record) : Bool := r.level.rank ≤ least.rank

end Record

end ChipEight.Log
