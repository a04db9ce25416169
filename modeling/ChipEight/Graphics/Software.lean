import ChipEight.Graphics

namespace ChipEight

/-!
# A graphics library without a screen

A library that keeps its canvases in memory. It refuses windows over two to the power 31
pixels wide or high, and those with a side over a length of its own.

Which texel a pixel shows is left open in `inMemory`. `software` finds it in steps of
a fraction with sixteen binary places, beginning with half a step. The fraction is rounded
down, so the steps fall behind the pixels in a wide window: over 64 texels they keep up at
every whole scale to 28 and not at 29, where the last texel is one pixel short. It makes
no window with a side over 16384, and so none at a scale over 256.
-/

/-- A canvas with the texture that was copied onto it last, and the one that was presented. -/
structure Surface where
  width : Nat
  height : Nat
  copied : Option Texture
  presented : Option Texture

namespace Graphics

/-- The library with a limit on the sides, and a rule for the texel that a pixel shows. -/
def inMemory (limit : Nat) (texelAt : (texels pixels p : Nat) → Nat) : Graphics where
  Canvas := Surface
  make _ width height :=
    if widthLimit ≤ width.toNat then .error (.tooWide width.toNat)
    else if widthLimit ≤ height.toNat then .error (.tooHigh height.toNat)
    else if limit < width.toNat ∨ limit < height.toNat then .error .tooLarge
    else .ok ⟨width.toNat, height.toNat, none, none⟩
  createTexture _ width height :=
    -- rows are filled up to a multiple of four bytes
    let pitch := (3 * width.toNat + 3) / 4 * 4
    .ok ⟨width.toNat, height.toNat, pitch, Array.replicate (pitch * height.toNat) 0⟩
  lock t := .ok t
  copy canvas t := .ok { canvas with copied := some t }
  present canvas := { canvas with presented := canvas.copied }
  width := Surface.width
  height := Surface.height
  pixel canvas px py :=
    match canvas.presented with
    | none => .black
    | some t =>
      t.texel (texelAt t.width canvas.width px) (texelAt t.height canvas.height py)

def stepped (texels pixels p : Nat) : Nat :=
  let step := 65536 * texels / pixels
  (step / 2 + step * p) / 65536

def software : Graphics := inMemory longestSide stepped

/-- The last of 64 columns at scale 29: it begins with the pixel 1828, one late. -/
example : stepped 64 (64 * 29) 1827 = 62 ∧ nearest 64 (64 * 29) 1827 = 63 := by decide

end Graphics

end ChipEight
