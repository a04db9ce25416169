import ChipEight.Text.Numeral

namespace ChipEight

/-!
# Graphics libraries

What a window needs of the library that draws it. A window has a canvas, which the library
makes from a title and a size. To draw on it, a texture is made and locked; its bytes are
written, it is copied onto the canvas and the canvas is presented. All of this but the
last can fail.

The library is a parameter. What is taken for granted about one is said by the laws below,
each by itself, so that a theorem names those it rests on.
-/

structure Colour where
  red : UInt8
  green : UInt8
  blue : UInt8
  deriving DecidableEq, Repr

namespace Colour

def black : Colour := ⟨0x00, 0x00, 0x00⟩

def white : Colour := ⟨0xFF, 0xFF, 0xFF⟩

end Colour

/-- Rows of texels, three bytes to a texel. A row begins `pitch` bytes behind the one before. -/
structure Texture where
  width : Nat
  height : Nat
  pitch : Nat
  bytes : Array UInt8

def Texture.texel (t : Texture) (x y : Nat) : Colour :=
  let first := y * t.pitch + 3 * x
  ⟨t.bytes.getD first 0, t.bytes.getD (first + 1) 0, t.bytes.getD (first + 2) 0⟩

inductive WindowError
  | tooWide (width : Nat)
  | tooHigh (height : Nat)
  /-- For a reason that the library puts into words. -/
  | refused (reason : String)
  deriving DecidableEq, Repr

namespace WindowError

def message : WindowError → String
  | tooWide width => "Window width (" ++ Numeral.decimal width ++ ") is too high."
  | tooHigh height => "Window height (" ++ Numeral.decimal height ++ ") is too high."
  | refused reason => "SDL error: " ++ reason

/-- A side is longer than the library can make it. -/
def tooLarge : WindowError := refused "Window is too large."

end WindowError

structure Graphics where
  Canvas : Type
  make : (title : String) → (width height : UInt32) → Except WindowError Canvas
  createTexture : Canvas → (width height : UInt32) → Except String Texture
  /-- A texture whose bytes may be written. What they hold before that is not said. -/
  lock : Texture → Except String Texture
  /-- Copy a whole texture onto the whole canvas. -/
  copy : Canvas → Texture → Except String Canvas
  present : Canvas → Canvas
  width : Canvas → Nat
  height : Canvas → Nat
  /-- What has been presented of a canvas, pixel by pixel. -/
  pixel : Canvas → (px py : Nat) → Colour

namespace Graphics

def widthLimit : Nat := 2147483648

/-- The longest side of a window. -/
def longestSide : Nat := 16384

/-! ## Laws -/

section Laws

variable (G : Graphics)

/-- A window that is too wide is refused, with its width. -/
def RefusesWide : Prop :=
  ∀ title width height, widthLimit ≤ width.toNat →
    G.make title width height = .error (.tooWide width.toNat)

/-- A window is made unless one of its sides is too long; then the library says so. -/
structure LimitsSides : Prop where
  refuses : ∀ title width height, width.toNat < widthLimit → height.toNat < widthLimit →
    longestSide < width.toNat ∨ longestSide < height.toNat →
    G.make title width height = .error .tooLarge
  makes : ∀ title width height, width.toNat ≤ longestSide → height.toNat ≤ longestSide →
    ∃ canvas, G.make title width height = .ok canvas

/-- No step of drawing fails. -/
structure Draws : Prop where
  creates : ∀ canvas width height, ∃ t, G.createTexture canvas width height = .ok t
  locks : ∀ t, ∃ t', G.lock t = .ok t'
  copies : ∀ canvas t, ∃ canvas', G.copy canvas t = .ok canvas'

/-- A window of this size is made when it is asked for. -/
def MakesSized (width height : Nat) : Prop :=
  ∀ title, ∃ canvas, G.make title (.ofNat width) (.ofNat height) = .ok canvas ∧
    G.width canvas = width ∧ G.height canvas = height

/-- A texture of this size can be written: its rows do not overlap, and all of them are there. -/
def HoldsTextures (width height : Nat) : Prop :=
  ∀ canvas, ∃ t, G.createTexture canvas (.ofNat width) (.ofNat height) = .ok t ∧
    ∃ t', G.lock t = .ok t' ∧ t'.width = width ∧ t'.height = height ∧
      3 * width ≤ t'.pitch ∧ t'.pitch * height ≤ t'.bytes.size

/-- The texel, out of `texels` in a line, that lies under the middle of a pixel when they are
stretched over `pixels` pixels. -/
def nearest (texels pixels p : Nat) : Nat := (2 * p + 1) * texels / (2 * pixels)

/-- A texture of one size that is copied onto a canvas of another is stretched over all of it,
every pixel taking the nearest texel, and the canvas keeps its size. -/
def Stretches (columns rows width height : Nat) : Prop :=
  ∀ canvas t, G.width canvas = width → G.height canvas = height →
    t.width = columns → t.height = rows →
    ∃ canvas', G.copy canvas t = .ok canvas' ∧
      G.width (G.present canvas') = width ∧ G.height (G.present canvas') = height ∧
      ∀ px < width, ∀ py < height, G.pixel (G.present canvas') px py =
        t.texel (nearest columns width px) (nearest rows height py)

end Laws

end Graphics

end ChipEight
