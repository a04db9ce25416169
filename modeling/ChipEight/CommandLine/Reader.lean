import ChipEight.CommandLine.Request

namespace ChipEight.CommandLine

/-!
# Reading a command line

Words are read from left to right. A setting whose number stands in the next word, and
the name of the program file, are first held open: they are settled, and checked, when
the next option or file name begins, or at the end. A word that cannot be anything is
refused at once, before whatever is still open.
-/

/-- What the words read so far have settled. -/
structure Given where
  path : Option (List Char)
  clock : Option UInt32
  scale : Option UInt32
  seed : Option UInt64
  deriving DecidableEq, Repr

/-- What is still held open. -/
inductive Open
  | nothing
  | path (word : List Char)
  | setting (o : Setting) (value : Option (List Char))
  deriving DecidableEq, Repr

structure Progress where
  given : Given
  held : Open
  deriving DecidableEq, Repr

namespace Given

def nothing : Given := ⟨none, none, none, none⟩

def has (g : Given) : Setting → Bool
  | .clock => g.clock.isSome
  | .scale => g.scale.isSome
  | .seed => g.seed.isSome

def assign (g : Given) (o : Setting) (value : List Char) : Except Stop Given :=
  if g.has o then .error (.refused (.repeated o))
  else
    match o with
    | .clock =>
      match readUInt32 value with
      | .ok n => .ok { g with clock := some n }
      | .error e => .error (.refused (.badNumber .clock value e))
    | .scale =>
      match readUInt32 value with
      | .ok n => .ok { g with scale := some n }
      | .error e => .error (.refused (.badNumber .scale value e))
    | .seed =>
      match readUInt64 value with
      | .ok n => .ok { g with seed := some n }
      | .error e => .error (.refused (.badNumber .seed value e))

def request (g : Given) : Except Stop Request :=
  match g.path with
  | none => .error (.refused .missingPath)
  | some path =>
    .ok
      { path := String.ofList path
        clock := g.clock.getD defaultClock
        scale := g.scale.getD defaultScale
        seed := g.seed }

end Given

namespace Progress

def start : Progress := ⟨.nothing, .nothing⟩

/-- Check and keep what is held open. -/
def settle (p : Progress) : Except Stop Given :=
  match p.held with
  | .nothing => .ok p.given
  | .path [] => .error (.refused (.missingValue pathUsage))
  | .path _ => .ok p.given
  | .setting o none => .error (.refused (.missingValue o.usage))
  | .setting o (some value) => p.given.assign o value

def takePath (p : Progress) (word : List Char) : Except Stop Progress :=
  if p.given.path.isSome then .error (.refused (.unknownWord word))
  else do
    let g ← p.settle
    .ok ⟨{ g with path := some word }, .path word⟩

def stop (p : Progress) (reason : Stop) : Except Stop Progress := do
  let _ ← p.settle
  .error reason

def takeSetting (p : Progress) (o : Setting) : Option (List Char) → Except Stop Progress
  | none => do
    let g ← p.settle
    .ok ⟨g, .setting o none⟩
  | some value => do
    let g ← p.settle
    let g ← g.assign o value
    .ok ⟨g, .nothing⟩

def takeLong (p : Progress) (body : List Char) : Except Stop Progress :=
  let name := body.takeWhile (· != '=')
  let value := (body.dropWhile (· != '=')).tail?
  if name = "help".toList then
    match value with
    | some v => .error (.refused (.unneededValue "--help" v))
    | none => p.stop .help
  else if name = "version".toList then
    match value with
    | some v => .error (.refused (.unneededValue "--version" v))
    | none => p.stop .version
  else
    match Setting.ofLong? name with
    | some o => p.takeSetting o value
    | none => .error (.refused (.unknownWord ('-' :: '-' :: name)))

def takeLetter (p : Progress) (letter : Char) (rest : List Char) : Except Stop Progress :=
  if letter = 'h' then p.stop .summary
  else if letter = 'V' then p.stop .version
  else
    match Setting.ofLetter? letter with
    | some o =>
      p.takeSetting o <|
        match rest with
        | [] => none
        | '=' :: value => some value
        | value => some value
    | none => .error (.refused (.unknownWord ['-', letter]))

/-- A word that is no option: the number a setting waits for, or a file name. -/
def takePlain (p : Progress) (word : List Char) : Except Stop Progress :=
  match p.held with
  | .setting o none => .ok { p with held := .setting o (some word) }
  | _ => p.takePath word

def take (p : Progress) : List Char → Except Stop Progress
  | '-' :: '-' :: body => p.takeLong body
  | '-' :: letter :: rest => p.takeLetter letter rest
  | word => p.takePlain word

def takePaths (p : Progress) : List (List Char) → Except Stop Progress
  | [] => .ok p
  | word :: rest => do (← p.takePath word).takePaths rest

/-- The remaining words. Two dashes alone end the options. -/
def takeAll (p : Progress) : List (List Char) → Except Stop Progress
  | [] => .ok p
  | word :: rest =>
    if word = ['-', '-'] then p.takePaths rest
    else do (← p.take word).takeAll rest

end Progress

def read (words : List String) : Except Stop Request := do
  let p ← Progress.start.takeAll (words.map String.toList)
  (← p.settle).request

end ChipEight.CommandLine
