import Mathlib.Data.List.Basic
import ChipEight.CommandLine.Request
import ChipEight.Proofs.CommandLine.Numbers

namespace ChipEight.CommandLine

/-!
# Conventions of a command line

The words of a command line are read by a parser that is told of the settings: their names, the
letters that stand for some of them, the sizes of their numbers and what they have by default. The
parser is a parameter. `Conventions` says what is known of one: which ways to write a setting mean
the same, where the name of the program file may stand, and what one more setting does to a command
line in which every setting is written in one way and the file stands last.
-/

namespace Setting

/-- The first number too large for the setting. -/
def bound : Setting → Nat
  | clock => 2 ^ 32
  | scale => 2 ^ 32
  | seed => 2 ^ 64

def default? : Setting → Option Nat
  | clock => some defaultClock.toNat
  | scale => some defaultScale.toNat
  | seed => none

def flag (o : Setting) : String := "--" ++ o.long

/-- The setting with its value in one word. -/
def joined (o : Setting) (value : String) : String := o.flag ++ "=" ++ value

end Setting

def letterFlag (letter : Char) : String := String.ofList ['-', letter]

/-- The words that give settings their values, each in one word. -/
def joinedWords (given : List (Setting × String)) : List String :=
  given.map fun entry => entry.1.joined entry.2

@[simp] theorem joinedWords_nil : joinedWords [] = [] := rfl

@[simp] theorem joinedWords_cons (o : Setting) (value : String) (given : List (Setting × String)) :
    joinedWords ((o, value) :: given) = o.joined value :: joinedWords given := rfl

@[simp] theorem joinedWords_append (given given' : List (Setting × String)) :
    joinedWords (given ++ given') = joinedWords given ++ joinedWords given' :=
  List.map_append

namespace Request

/-- The number that a request has for a setting. -/
def number? (r : Request) : Setting → Option Nat
  | .clock => some r.clock.toNat
  | .scale => some r.scale.toNat
  | .seed => r.seed.map UInt64.toNat

/-- A request for a program file and nothing else. -/
def plain (path : String) : Request := ⟨path, defaultClock, defaultScale, none⟩

def withNumber (r : Request) (n : Nat) : Setting → Request
  | .clock => { r with clock := .ofNat n }
  | .scale => { r with scale := .ofNat n }
  | .seed => { r with seed := some (.ofNat n) }

variable (r : Request)

theorem number?_plain (path : String) (o : Setting) : (plain path).number? o = o.default? := by
  cases o <;> rfl

theorem path_withNumber (n : Nat) (o : Setting) : (r.withNumber n o).path = r.path := by
  cases o <;> rfl

theorem number?_withNumber_self {n : Nat} {o : Setting} (h : n < o.bound) :
    (r.withNumber n o).number? o = some n := by
  cases o with
  | clock | scale => exact congrArg some (UInt32.toNat_ofNat_of_lt h)
  | seed => exact congrArg some (UInt64.toNat_ofNat_of_lt h)

theorem number?_withNumber_of_ne (n : Nat) {o o' : Setting} (h : o' ≠ o) :
    (r.withNumber n o).number? o' = r.number? o' := by
  cases o <;> cases o' <;> first | rfl | contradiction

end Request

/-- A word that cannot be taken for an option. -/
def IsPlain (word : String) : Prop := word = "-" ∨ word.toList.head? ≠ some '-'

theorem IsPlain.toList_or {word : String} (h : IsPlain word) :
    word.toList = ['-'] ∨ word.toList.head? ≠ some '-' :=
  h.imp_left (congrArg String.toList)

section Parser

variable {ε : Type} (parse : List String → Except ε Request)

/-- Two command lines ask for the same, or for nothing that is accepted. -/
def SameRequest (words words' : List String) : Prop :=
  ∀ r, parse words = .ok r ↔ parse words' = .ok r

structure Conventions : Prop where
  /-- The value of a setting may be the next word, unless that looks like an option. -/
  apart : ∀ front back (o : Setting) value, "--" ∉ front → value.toList.head? ≠ some '-' →
    SameRequest parse (front ++ o.flag :: value :: back) (front ++ o.joined value :: back)
  /-- The letter of a setting stands for its name. -/
  letterApart : ∀ front back (o : Setting) letter value, o.letter? = some letter →
    "--" ∉ front → value.toList.head? ≠ some '-' →
    SameRequest parse (front ++ letterFlag letter :: value :: back)
      (front ++ o.joined value :: back)
  letterJoined : ∀ front back (o : Setting) letter value, o.letter? = some letter →
    "--" ∉ front → value ≠ "" → value.toList.head? ≠ some '=' →
    SameRequest parse (front ++ (letterFlag letter ++ value) :: back)
      (front ++ o.joined value :: back)
  letterEquals : ∀ front back (o : Setting) letter value, o.letter? = some letter →
    "--" ∉ front →
    SameRequest parse (front ++ (letterFlag letter ++ "=" ++ value) :: back)
      (front ++ o.joined value :: back)
  /-- The program file may stand before a setting or behind it. -/
  fileEarlier : ∀ (given : List (Setting × String)) path (o : Setting) value back, path ≠ "" →
    IsPlain path →
    SameRequest parse (joinedWords given ++ path :: o.joined value :: back)
      (joinedWords given ++ o.joined value :: path :: back)
  /-- At the end it may also stand behind two dashes. -/
  dashes : ∀ (given : List (Setting × String)) path, path ≠ "" → IsPlain path →
    SameRequest parse (joinedWords given ++ [path]) (joinedWords given ++ ["--", path])
  /-- What is left out has its default. -/
  defaults : ∀ path, path ≠ "" → parse ["--", path] = .ok (.plain path)
  /-- A number that fits is taken by a setting that has none yet. -/
  takes : ∀ (given : List (Setting × String)) (o : Setting) value n path r, path ≠ "" →
    o ∉ given.map Prod.fst → Denotes value.toList n → n < o.bound →
    parse (joinedWords given ++ ["--", path]) = .ok r →
    parse (joinedWords given ++ [o.joined value, "--", path]) = .ok (r.withNumber n o)
  /-- A number that is too large is an error. -/
  refuses : ∀ front back (o : Setting) value n, "--" ∉ front → Denotes value.toList n →
    o.bound ≤ n → ∀ r, parse (front ++ o.joined value :: back) ≠ .ok r

end Parser

section SameRequest

variable {ε : Type} {parse : List String → Except ε Request} {words words' words'' : List String}

theorem SameRequest.refl (words : List String) : SameRequest parse words words := fun _ => Iff.rfl

theorem SameRequest.trans (h : SameRequest parse words words')
    (h' : SameRequest parse words' words'') : SameRequest parse words words'' :=
  fun r => (h r).trans (h' r)

end SameRequest

end ChipEight.CommandLine
