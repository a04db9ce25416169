namespace ChipEight.Terminal

/-!
# What a terminal shows

A text can hold control characters and control sequences, which a terminal obeys but
does not show. `shown` keeps what is left. A sequence begins with an escape character,
and what ends it depends on its kind; another escape character starts over, and two
characters cancel whatever is under way.

White space breaks off the short kinds of sequences, and is shown with the characters
behind it. What becomes of such a sequence depends on the reader: it is forgotten, or it
is taken up again at the next character that is not shown.
-/

/-- What becomes of a sequence that white space breaks off. -/
inductive BrokenOff
  | forgotten
  | resumed
  deriving DecidableEq, Repr

inductive Mode
  | text
  | escape
  | escapeMiddle
  /-- In a control sequence, which its first letter ends. -/
  | control
  /-- In a command to the system, which a bell ends. -/
  | command
  | deviceStart
  | deviceNumbers
  | deviceMiddle
  /-- In a string that the byte `9C` ends. -/
  | string
  deriving DecidableEq, Repr

def isBlank (c : Char) : Bool := c == '\t' || c == '\n' || c.toNat == 0x0C || c == '\r'

def within (first last : Nat) (c : Char) : Bool :=
  Nat.ble first c.toNat && Nat.ble c.toNat last

/-- Whether the terminator of strings is among the bytes of a character. -/
def terminates (c : Char) : Bool := (String.utf8EncodeChar c).contains 0x9C

def shows (c : Char) : Mode → Bool
  | .text => isBlank c || (Nat.ble 0x20 c.toNat && c.toNat != 0x7F)
  | .escape | .escapeMiddle | .control => isBlank c
  | _ => false

def afterEscape (c : Char) : Mode :=
  if within 0x20 0x2F c then .escapeMiddle
  else if c = 'P' then .deviceStart
  else if c = 'X' ∨ c = '^' ∨ c = '_' then .string
  else if c = '[' then .control
  else if c = ']' then .command
  else if within 0x30 0x7E c then .text
  else .escape

def next (c : Char) (m : Mode) : Mode :=
  if c.toNat = 0x1B then .escape
  else if c.toNat = 0x18 ∨ c.toNat = 0x1A then .text
  else
    match m with
    | .text => .text
    | .escape => afterEscape c
    | .escapeMiddle => if within 0x30 0x7E c then .text else .escapeMiddle
    | .control => if within 0x40 0x7E c then .text else .control
    | .command => if c.toNat = 0x07 then .text else .command
    | .deviceStart =>
      if within 0x20 0x2F c then .deviceMiddle
      else if within 0x30 0x3F c then .deviceNumbers
      else if within 0x40 0x7E c then .string
      else .deviceStart
    | .deviceNumbers =>
      if within 0x20 0x2F c then .deviceMiddle
      else if within 0x3C 0x7E c then .string
      else .deviceNumbers
    | .deviceMiddle => if within 0x30 0x7E c then .string else .deviceMiddle
    | .string => if terminates c then .text else .string

/-- The sequence that is broken off while a character is shown in a mode, where `held` was
broken off before. A character outside ASCII puts an end to it. -/
def heldBy (b : BrokenOff) (c : Char) (m held : Mode) : Mode :=
  match b with
  | .forgotten => .text
  | .resumed =>
    if Nat.ble 0x80 c.toNat then .text
    else if m = .text then held
    else m

/-- What is shown of a text that begins in mode `m`, with a sequence in mode `held` broken off
if `m` is plain text. -/
def shownFrom (b : BrokenOff) (m held : Mode) : List Char → List Char
  | [] => []
  | c :: rest =>
    if shows c m then c :: shownFrom b .text (heldBy b c m held) rest
    else shownFrom b (next c (if m = .text then held else m)) .text rest

def shown (b : BrokenOff) (text : List Char) : List Char := shownFrom b .text .text text

@[simp] theorem shown_nil (b : BrokenOff) : shown b [] = [] := rfl

end ChipEight.Terminal
