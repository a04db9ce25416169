namespace ChipEight.Numeral

/-!
# Numerals

Digits of a natural number in a base up to 36, most significant first, with
upper-case letters above nine, and the padding that addresses, keys and register
dumps are printed with. `digits_of_lt` and `digits_of_le` are the two equations
every statement about numerals rests on.
-/

def digitChar (d : Nat) : Char :=
  if d < 10 then Char.ofNat (48 + d) else Char.ofNat (55 + d)

/-- The digits of `n`, without leading zeros; zero is a single `0`. -/
def digits (base n : Nat) : List Char :=
  if _h : 1 < base ∧ base ≤ n then digits base (n / base) ++ [digitChar (n % base)]
  else [digitChar n]
termination_by n
decreasing_by exact Nat.div_lt_self (by omega) (by omega)

/-- The digits of `n`, filled up with zeros on the left to at least `width`. -/
def padded (base width n : Nat) : List Char :=
  List.replicate (width - (digits base n).length) '0' ++ digits base n

def decimal (n : Nat) : String := String.ofList (digits 10 n)

def hex (width n : Nat) : String := String.ofList (padded 16 width n)

def prefixedHex (width n : Nat) : String := "0x" ++ hex width n

theorem digits_of_lt {base n : Nat} (h : n < base) : digits base n = [digitChar n] := by
  rw [digits, dif_neg (by omega)]

theorem digits_of_le {base n : Nat} (hb : 1 < base) (h : base ≤ n) :
    digits base n = digits base (n / base) ++ [digitChar (n % base)] := by
  rw [digits, dif_pos ⟨hb, h⟩]

theorem padded_of_le {base width n : Nat} (h : width ≤ (digits base n).length) :
    padded base width n = digits base n := by
  simp [padded, Nat.sub_eq_zero_of_le h]

@[simp] theorem toList_decimal (n : Nat) : (decimal n).toList = digits 10 n := by
  simp [decimal]

@[simp] theorem toList_hex (width n : Nat) : (hex width n).toList = padded 16 width n := by
  simp [hex]

end ChipEight.Numeral
