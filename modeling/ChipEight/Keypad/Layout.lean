import ChipEight.Keypad

namespace ChipEight.Keypad

/-!
# The keypad on a keyboard

The pad's four by four keys lie on the left four columns of the letters and digits
of a keyboard, row by row:

    1 2 3 C        1 2 3 4
    4 5 6 D        Q W E R
    7 8 9 E        A S D F
    A 0 B F        Z X C V
-/

/-- The keyboard's names for the keys of the pad, from key 0 to key F. -/
def keyboardNames : Vector String 16 :=
  #v["X", "1", "2", "3", "Q", "W", "E", "A", "S", "D", "Z", "C", "4", "R", "F", "V"]

def keyboardName (k : Key) : String := keyboardNames.get k

def ofKeyboard? (name : String) : Option Key :=
  (List.finRange 16).find? fun k => keyboardName k == name

def quitKey : String := "Escape"

end ChipEight.Keypad
