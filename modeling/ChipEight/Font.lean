namespace ChipEight.Font

/-!
# The built-in digits

Sixteen sprites of five rows each, one per hexadecimal digit, kept at the bottom of
memory. A sprite is four pixels wide, in the upper half of its bytes.
-/

def glyphHeight : Nat := 5

def base : Nat := 0

def sheet : List UInt8 :=
  [0xF0, 0x90, 0x90, 0x90, 0xF0,
   0x20, 0x60, 0x20, 0x20, 0x70,
   0xF0, 0x10, 0xF0, 0x80, 0xF0,
   0xF0, 0x10, 0xF0, 0x10, 0xF0,
   0x90, 0x90, 0xF0, 0x10, 0x10,
   0xF0, 0x80, 0xF0, 0x10, 0xF0,
   0xF0, 0x80, 0xF0, 0x90, 0xF0,
   0xF0, 0x10, 0x20, 0x40, 0x40,
   0xF0, 0x90, 0xF0, 0x90, 0xF0,
   0xF0, 0x90, 0xF0, 0x10, 0xF0,
   0xF0, 0x90, 0xF0, 0x90, 0x90,
   0xE0, 0x90, 0xE0, 0x90, 0xE0,
   0xF0, 0x80, 0x80, 0x80, 0xF0,
   0xE0, 0x90, 0x90, 0x90, 0xE0,
   0xF0, 0x80, 0xF0, 0x80, 0xF0,
   0xF0, 0x80, 0xF0, 0x80, 0x80]

/-- The address of a digit's sprite, continued past F for any register value. -/
def glyphAddress (value : UInt8) : UInt16 := UInt16.ofNat (base + value.toNat * glyphHeight)

theorem length_sheet : sheet.length = 16 * glyphHeight := rfl

end ChipEight.Font
