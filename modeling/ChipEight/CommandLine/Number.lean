import ChipEight.Text.Numeral

namespace ChipEight.CommandLine

/-!
# Numbers on the command line

A number is a decimal numeral with an optional sign. It is read from left to right:
the first place where a character is no digit, or where the number so far leaves its
range, decides what is wrong with it. Settings of 32 bits are first read as signed
64-bit numbers and then held against their own range; a 64-bit setting takes no minus
sign.
-/

inductive NumberError
  | empty
  | invalidDigit
  | tooLarge
  | tooSmall
  | outside (value : Int) (limit : Nat)
  deriving DecidableEq, Repr

def NumberError.message : NumberError → String
  | empty => "cannot parse integer from empty string"
  | invalidDigit => "invalid digit found in string"
  | tooLarge => "number too large to fit in target type"
  | tooSmall => "number too small to fit in target type"
  | outside value limit =>
    (if value < 0 then "-" else "") ++ Numeral.decimal value.natAbs ++ " is not in 0..=" ++
      Numeral.decimal limit

def digitValue? (c : Char) : Option Nat :=
  if '0' ≤ c ∧ c ≤ '9' then some (c.toNat - '0'.toNat) else none

/-- Continue reading a numeral whose digits so far make `value`, up to a limit. -/
def readDigits (limit : Nat) (beyond : NumberError) (value : Nat) :
    List Char → Except NumberError Nat
  | [] => .ok value
  | c :: rest =>
    match digitValue? c with
    | none => .error .invalidDigit
    | some d =>
      let next := 10 * value + d
      if limit < next then .error beyond else readDigits limit beyond next rest

def readNumeral (limit : Nat) (beyond : NumberError) : List Char → Except NumberError Nat
  | [] => .error .invalidDigit
  | digits => readDigits limit beyond 0 digits

def maxSigned : Nat := 9223372036854775807

def readSigned : List Char → Except NumberError Int
  | [] => .error .empty
  | '-' :: digits => (readNumeral (maxSigned + 1) .tooSmall digits).map Int.negOfNat
  | '+' :: digits => (readNumeral maxSigned .tooLarge digits).map Int.ofNat
  | digits => (readNumeral maxSigned .tooLarge digits).map Int.ofNat

def readUInt32 (word : List Char) : Except NumberError UInt32 :=
  match readSigned word with
  | .error e => .error e
  | .ok (.ofNat n) =>
    if n < UInt32.size then .ok (UInt32.ofNat n) else .error (.outside (.ofNat n) (UInt32.size - 1))
  | .ok value => .error (.outside value (UInt32.size - 1))

def readUInt64 : List Char → Except NumberError UInt64
  | [] => .error .empty
  | '+' :: digits => (readNumeral (UInt64.size - 1) .tooLarge digits).map UInt64.ofNat
  | digits => (readNumeral (UInt64.size - 1) .tooLarge digits).map UInt64.ofNat

end ChipEight.CommandLine
