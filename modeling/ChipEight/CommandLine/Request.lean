import ChipEight.CommandLine.Number
import ChipEight.Text.Terminal

namespace ChipEight.CommandLine

/-!
# What can be asked for

A command line names a program file and up to three settings, each with a number; or
it asks for help or for the version. Everything else is refused for one of the causes
listed here.
-/

inductive Setting
  | clock
  | scale
  | seed
  deriving DecidableEq, Repr

namespace Setting

def long : Setting → String
  | clock => "clock"
  | scale => "scale"
  | seed => "seed"

def letter? : Setting → Option Char
  | clock => some 'c'
  | scale => some 's'
  | seed => none

/-- How messages call the setting. -/
def usage : Setting → String
  | clock => "--clock <CLOCK>"
  | scale => "--scale <SCALE>"
  | seed => "--seed <SEED>"

def all : List Setting := [clock, scale, seed]

def ofLong? (name : List Char) : Option Setting := all.find? fun o => o.long.toList == name

def ofLetter? (c : Char) : Option Setting := all.find? fun o => o.letter? == some c

end Setting

def defaultClock : UInt32 := 500

def defaultScale : UInt32 := 10

structure Request where
  path : String
  clock : UInt32
  scale : UInt32
  seed : Option UInt64
  deriving DecidableEq, Repr

inductive Refusal
  | missingPath
  | unknownWord (word : List Char)
  /-- A setting without a number, or an empty file name; `usage` says which. -/
  | missingValue (usage : String)
  | repeated (o : Setting)
  | badNumber (o : Setting) (value : List Char) (cause : NumberError)
  /-- A value for an option that takes none. -/
  | unneededValue (option : String) (value : List Char)
  deriving DecidableEq, Repr

def pathUsage : String := "<ROM>"

/-- A word of the command line as messages quote it: what a terminal shows of it. -/
def quoted (b : Terminal.BrokenOff) (word : List Char) : String :=
  "'" ++ String.ofList (Terminal.shown b word) ++ "'"

def firstLine : List Char → List Char
  | [] => []
  | '\n' :: _ => []
  | '\r' :: '\n' :: _ => []
  | c :: rest => c :: firstLine rest

namespace Refusal

def message (b : Terminal.BrokenOff) : Refusal → String
  | missingPath => "the following required arguments were not provided:"
  | unknownWord word => "unexpected argument " ++ quoted b word ++ " found"
  | missingValue usage => "a value is required for '" ++ usage ++ "' but none was supplied"
  | repeated o => "the argument '" ++ o.usage ++ "' cannot be used multiple times"
  | badNumber o value cause =>
    "invalid value " ++ quoted b value ++ " for '" ++ o.usage ++ "': " ++ cause.message
  | unneededValue option value =>
    "unexpected value " ++ quoted b value ++ " for '" ++ option ++
      "' found; no more were expected"

/-- The first line of the text, announced as an error. A quoted word may hold line breaks. -/
def firstLineOf (b : Terminal.BrokenOff) (r : Refusal) : String :=
  String.ofList (firstLine ("error: " ++ r.message b).toList)

def headline (r : Refusal) : String := r.firstLineOf .forgotten

def printedHeadline (r : Refusal) : String := r.firstLineOf .resumed

end Refusal

inductive Stop
  | summary
  | help
  | version
  | refused (r : Refusal)
  deriving DecidableEq, Repr

end ChipEight.CommandLine
