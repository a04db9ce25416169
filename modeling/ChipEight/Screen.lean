import ChipEight.Grid

namespace ChipEight

/-!
# The screen

Sprites are drawn by exclusive or, so a moving object is erased before it is drawn
again. To keep it from flickering, the pixels a sprite turns off stay visible until
the next sprite comes: they are only marked as fading. What a sprite sees is the
`solid` part of the screen, without the fading pixels.
-/

structure Screen where
  /-- The pixels that a viewer sees. -/
  visible : Grid
  /-- The pixels that the next sprite removes first. -/
  fading : Grid
  /-- Whether a viewer has to be given the screen again. -/
  stale : Bool
  deriving DecidableEq

namespace Screen

def dark : Screen := ⟨Grid.blank, Grid.blank, true⟩

/-- The pixels that count as lit for the next sprite. -/
def solid (s : Screen) : Grid := s.visible \ s.fading

/-- Draw a sprite with its top left corner in column `x` of row `y`, around the edges.
The pixels it turns off stay visible and begin to fade, older fading pixels vanish. -/
def draw (s : Screen) (x y : Nat) (sprite : List UInt8) : Screen :=
  let image := Grid.stamp x y sprite
  let window := Grid.stamp x y (sprite.map fun _ => 0xFF)
  { visible := s.solid ||| image
    fading := window \ (s.solid ^^^ image)
    stale := s.stale || !(s.visible &&& s.fading).isBlank || !image.isBlank }

/-- Whether a sprite turns off a pixel that was lit. -/
def collides (s : Screen) (x y : Nat) (sprite : List UInt8) : Bool :=
  !(s.solid &&& Grid.stamp x y sprite).isBlank

def shown (s : Screen) : Screen := { s with stale := false }

@[simp] theorem lit_solid (s : Screen) (x : Fin 64) (y : Fin 32) :
    s.solid.lit x y = (s.visible.lit x y && !s.fading.lit x y) :=
  Grid.lit_sdiff s.visible s.fading x y

@[simp] theorem solid_dark : dark.solid = Grid.blank := by
  ext x y
  simp [solid, dark]

end Screen

end ChipEight
