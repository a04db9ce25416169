import ChipEight.Graphics.Software
import ChipEight.Grid

namespace ChipEight

/-!
# The window

A window shows a grid enlarged by a whole number. A grid is first written out, row after
row and three bytes a pixel; the bytes go row by row into a texture, which the graphics
library stretches over the window. A shot of a window lists the pixel rows that are not
all black.
-/

namespace Grid

def pixelRows (g : Grid) : List (List Bool) :=
  (List.finRange 32).map fun y => (List.finRange 64).map fun x => g.lit x y

/-- The pixels one after the other, each as three bytes: all ones if it is lit. -/
def toBytes (g : Grid) : List UInt8 :=
  (g.pixelRows.flatMap fun row => row).flatMap fun lit =>
    List.replicate 3 (if lit then 0xFF else 0x00)

end Grid

/-- The parts of a list, `size` elements each; the last may be shorter. -/
def chunks {α : Type} (size : Nat) : List α → List (List α)
  | [] => []
  | a :: rest => (a :: rest.take (size - 1)) :: chunks size (rest.drop (size - 1))
termination_by list => list.length
decreasing_by
  simp only [List.length_drop, List.length_cons]
  omega

/-- Bytes in the place of those from `first` on. -/
def writeBytes (buffer : Array UInt8) (first : Nat) : List UInt8 → Array UInt8
  | [] => buffer
  | b :: rest => writeBytes (buffer.setIfInBounds first b) (first + 1) rest

/-- Rows in the place of those from number `y` on. -/
def writeRows (pitch : Nat) (buffer : Array UInt8) (y : Nat) : List (List UInt8) → Array UInt8
  | [] => buffer
  | row :: rest => writeRows pitch (writeBytes buffer (y * pitch) row) (y + 1) rest

def Texture.fill (t : Texture) (rows : List (List UInt8)) : Texture :=
  { t with bytes := writeRows t.pitch t.bytes 0 rows }

/-- The bits of a row, eight to a byte, the first in the most significant place. -/
def packBits : List Bool → List UInt8
  | a :: b :: c :: d :: e :: f :: g :: h :: rest =>
    UInt8.ofNat ([a, b, c, d, e, f, g, h].foldl (fun n bit => 2 * n + bit.toNat) 0) ::
      packBits rest
  | _ => []

/-- The rows of a window with a white pixel, by their number from the top. -/
abbrev Shot := List (Nat × List UInt8)

structure Window (G : Graphics) where
  canvas : G.Canvas

namespace Window

def title : String := "Chip-8"

/-- The window for a scale. Its sides are products of 32 bits. -/
def openOn (G : Graphics) (scale : Nat) : Except WindowError (Window G) :=
  match G.make title (.ofNat gridWidth * .ofNat scale) (.ofNat gridHeight * .ofNat scale) with
  | .error e => .error e
  | .ok canvas => .ok ⟨canvas⟩

def make (scale : Nat) : Except WindowError (Window .software) := openOn .software scale

variable {G : Graphics}

def render (w : Window G) (g : Grid) : Except String (Window G) := do
  let t ← G.createTexture w.canvas (.ofNat gridWidth) (.ofNat gridHeight)
  let t ← G.lock t
  let canvas ← G.copy w.canvas (t.fill (chunks (3 * gridWidth) g.toBytes))
  return ⟨G.present canvas⟩

/-- Show a grid. If that fails the window stays as it is, and the reason is given. -/
def present (w : Window G) (g : Grid) : Window G × Option String :=
  match w.render g with
  | .ok w => (w, none)
  | .error reason => (w, some reason)

def width (w : Window G) : Nat := G.width w.canvas

def height (w : Window G) : Nat := G.height w.canvas

def pixel (w : Window G) (px py : Nat) : Colour := G.pixel w.canvas px py

def pixelRow (w : Window G) (py : Nat) : List Bool :=
  (List.range w.width).map fun px => w.pixel px py == .white

/-- The bits of a pixel row that is not all black. -/
def listedRow (w : Window G) (py : Nat) : Option (List UInt8) :=
  let pixels := w.pixelRow py
  if pixels.any id then some (packBits pixels) else none

def shot (w : Window G) : Shot :=
  (List.range w.height).filterMap fun py => (w.listedRow py).map fun bits => (py, bits)

/-- The shots of a window that shows grids one after the other. -/
def shots (w : Window G) : List Grid → List Shot
  | [] => []
  | g :: rest => let next := (w.present g).1; next.shot :: next.shots rest

end Window

end ChipEight
