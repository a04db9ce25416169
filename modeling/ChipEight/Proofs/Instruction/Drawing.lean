import ChipEight.Proofs.Instruction.Table
import ChipEight.Proofs.Memory.Wrapping
import ChipEight.Proofs.Trapping.Operations

namespace ChipEight

/-!
# A sprite pixel by pixel

What an instruction that draws does to each pixel, said in terms of the bits of the sprite
and of the screen before it. The window of a sprite covers no pixel twice, so each of its
pixels belongs to one bit.
-/

namespace State

/-- Bit `b` of row `k` of a sprite, counted from the most significant bit, falls on a pixel. -/
def FallsOn (s : State) (w : Word) (k b : Nat) (c : Fin 64) (r : Fin 32) : Prop :=
  c.val = ((s.reg w.x).toNat + b) % 64 ∧ r.val = ((s.reg w.y).toNat + k) % 32

def spriteBit (s : State) (k b : Nat) : Bool :=
  (s.memory.byteAt (s.index.toNat + k)).toNat.testBit (7 - b)

def InWindow (s : State) (w : Word) (c : Fin 64) (r : Fin 32) : Prop :=
  ∃ k < w.n.val, ∃ b < 8, s.FallsOn w k b c r

def InImage (s : State) (w : Word) (c : Fin 64) (r : Fin 32) : Prop :=
  ∃ k < w.n.val, ∃ b < 8, s.spriteBit k b = true ∧ s.FallsOn w k b c r

/-- Visible, and not about to vanish. -/
def IsSolid (s : State) (c : Fin 64) (r : Fin 32) : Prop :=
  s.screen.visible.lit c r = true ∧ s.screen.fading.lit c r = false

section Bits

variable {s : State} {w : Word} {c : Fin 64} {r : Fin 32}

theorem FallsOn.eq {k b k' b' : Nat} (h : s.FallsOn w k b c r) (h' : s.FallsOn w k' b' c r)
    (hk : k < w.n.val) (hk' : k' < w.n.val) (hb : b < 8) (hb' : b' < 8) : k' = k ∧ b' = b := by
  obtain ⟨hc, hr⟩ := h
  obtain ⟨hc', hr'⟩ := h'
  have hn := w.n.isLt
  omega

theorem FallsOn.inImage_iff {k b : Nat} (h : s.FallsOn w k b c r) (hk : k < w.n.val)
    (hb : b < 8) : s.InImage w c r ↔ s.spriteBit k b = true := by
  constructor
  · rintro ⟨k', hk', b', hb', hbit, h'⟩
    obtain ⟨rfl, rfl⟩ := h.eq h' hk hk' hb hb'
    exact hbit
  · intro hbit
    exact ⟨k, hk, b, hb, hbit, h⟩

end Bits

section Sprite

variable (s : State) (w : Word)

/-- The bytes that a word draws, from the top. -/
def sprite : List UInt8 := s.memory.readList s.index w.n.val

theorem length_sprite : (s.sprite w).length = w.n.val := s.memory.length_readList s.index w.n.val

theorem length_sprite_le : (s.sprite w).length ≤ 32 := by
  have hn := w.n.isLt
  rw [length_sprite]
  omega

theorem lit_image_iff (c : Fin 64) (r : Fin 32) :
    (Grid.stamp (s.reg w.x).toNat (s.reg w.y).toNat (s.sprite w)).lit c r = true ↔
      s.InImage w c r := by
  rw [Grid.lit_stamp_iff _ _ (s.length_sprite_le w)]
  simp only [sprite, InImage, FallsOn, spriteBit, Memory.length_readList, Memory.getElem_readList,
    Memory.read_add_eq_byteAt, exists_prop]

theorem lit_window_iff (c : Fin 64) (r : Fin 32) :
    (Grid.stamp (s.reg w.x).toNat (s.reg w.y).toNat ((s.sprite w).map fun _ => 0xFF)).lit c r =
      true ↔ s.InWindow w c r := by
  rw [Grid.lit_stamp_window_iff _ _ (s.length_sprite_le w), length_sprite]
  rfl

theorem lit_solid_iff (c : Fin 64) (r : Fin 32) :
    s.screen.solid.lit c r = true ↔ s.IsSolid c r := by
  rw [Screen.lit_solid, Bool.and_eq_true, Bool.not_eq_true']
  rfl

/-- The screen behind an instruction that draws. -/
def drawn : Screen := s.screen.draw (s.reg w.x).toNat (s.reg w.y).toNat (s.sprite w)

def collided : Bool := s.screen.collides (s.reg w.x).toNat (s.reg w.y).toNat (s.sprite w)

theorem visible_drawn_iff (c : Fin 64) (r : Fin 32) :
    (s.drawn w).visible.lit c r = true ↔ s.IsSolid c r ∨ s.InImage w c r := by
  simp only [drawn, Screen.draw, Grid.lit_or, Bool.or_eq_true, lit_solid_iff, lit_image_iff]

theorem fading_drawn_iff (c : Fin 64) (r : Fin 32) :
    (s.drawn w).fading.lit c r = true ↔
      s.InWindow w c r ∧ (s.IsSolid c r ↔ s.InImage w c r) := by
  rw [← lit_window_iff, ← lit_solid_iff, ← lit_image_iff, ← Bool.eq_iff_iff]
  simp only [drawn, Screen.draw, Grid.lit_sdiff, Grid.lit_xor, Bool.and_eq_true, Bool.not_eq_true',
    bne_eq_false_iff_eq]

theorem stale_drawn_iff :
    (s.drawn w).stale = true ↔ s.screen.stale = true ∨
      (∃ c r, s.screen.visible.lit c r = true ∧ s.screen.fading.lit c r = true) ∨
        ∃ c r, s.InImage w c r := by
  simp only [drawn, Screen.stale_draw_iff, Grid.isBlank_eq_false_iff, lit_image_iff]

/-- Of the image and what was solid, drawing leaves solid what is in one of them only. -/
theorem solid_drawn_iff (c : Fin 64) (r : Fin 32) :
    (s.drawn w).solid.lit c r = true ↔ ¬(s.IsSolid c r ↔ s.InImage w c r) := by
  rw [← lit_solid_iff, ← lit_image_iff, ← Bool.eq_iff_iff, drawn, Screen.solid_draw, Grid.lit_xor,
    bne_iff_ne]

theorem collided_iff : s.collided w = true ↔ ∃ c r, s.IsSolid c r ∧ s.InImage w c r := by
  simp only [collided, Screen.collides_iff, lit_solid_iff, lit_image_iff]

/-- Drawing leaves in the flag register whether a solid pixel was turned off. -/
theorem reg_flag_draw :
    (s.draw w.x w.y w.n).reg flag = 1 ∧ (∃ c r, s.IsSolid c r ∧ s.InImage w c r) ∨
      (s.draw w.x w.y w.n).reg flag = 0 ∧ ¬∃ c r, s.IsSolid c r ∧ s.InImage w c r := by
  have hflag : (s.draw w.x w.y w.n).reg flag = (s.collided w).toUInt8 :=
    s.reg_setReg_self flag (s.collided w).toUInt8
  rw [← s.collided_iff w, hflag]
  cases s.collided w with
  | true => exact Or.inl ⟨rfl, rfl⟩
  | false => exact Or.inr ⟨rfl, Bool.false_ne_true⟩

end Sprite

end State

/-- Behind a drawing instruction a pixel is visible if it was solid or belongs to the image of the
sprite, so pixels that a sprite turns off stay visible. The pixels of the window that are solid in
both or in neither begin to fade, and no others. The flag register reports whether a solid pixel was
turned off, and the screen is stale if it was, if a visible pixel vanishes or if a bit of the sprite
is set. Nothing else changes. Drawing bit after bit comes to the same. -/
theorem sprite_drawn_pixel_by_pixel (keys : Keypad) (random : Generator) (s : State) {w : Word}
    (hw : w.group.val = 0xD) :
    (∀ k < w.n.val, ∀ b < 8, ∀ c r, s.FallsOn w k b c r →
      (s.InImage w c r ↔ s.spriteBit k b = true) ∧
      ∀ k' < w.n.val, ∀ b' < 8, s.FallsOn w k' b' c r → k' = k ∧ b' = b) ∧
    ∃ i registers screen,
      let e : Effect := { state := { s with registers, screen }, random }
      Instruction.ofWord? w = some i ∧ i.execute keys random s = .ok e ∧
      Trapping.Operation.draw w ⟨keys, random⟩ (.ofState s) = .ok (.ok (.ofEffect e)) ∧
      (∀ c r, screen.visible.lit c r = true ↔ s.IsSolid c r ∨ s.InImage w c r) ∧
      (∀ c r, screen.fading.lit c r = true ↔
        s.InWindow w c r ∧ (s.IsSolid c r ↔ s.InImage w c r)) ∧
      (screen.stale = true ↔ s.screen.stale = true ∨
        (∃ c r, s.screen.visible.lit c r = true ∧ s.screen.fading.lit c r = true) ∨
        ∃ c r, s.InImage w c r) ∧
      (e.state.reg flag = 1 ∧ (∃ c r, s.IsSolid c r ∧ s.InImage w c r) ∨
        e.state.reg flag = 0 ∧ ¬∃ c r, s.IsSolid c r ∧ s.InImage w c r) ∧
      ∀ k, k ≠ flag → e.state.reg k = s.reg k := by
  refine ⟨?_, .draw w.x w.y w.n, (s.setReg flag (s.collided w).toUInt8).registers, s.drawn w,
    Instruction.ofWord?_of_encodes ⟨hw, rfl, rfl, rfl⟩, rfl, ?_, s.visible_drawn_iff w,
    s.fading_drawn_iff w, s.stale_drawn_iff w, s.reg_flag_draw w, ?_⟩
  · intro k hk b hb c r h
    exact ⟨h.inImage_iff hk hb, fun k' hk' b' hb' h' => h.eq h' hk hk' hb hb'⟩
  · exact Trapping.Operation.draw_performs w keys random s
  · intro k hk
    exact s.reg_setReg_of_ne (Ne.symm hk) _

/-- The upper two rows of the digit 0 around the corner, placed by the flag register. The corner was
solid and begins to fade, the pixel right of it was fading and is visible again. -/
theorem sprite_drawn_pixel_by_pixel_of_corner :
    let keys := Keypad.free
    let random : Generator := ⟨Vector.replicate 8 0, 0⟩
    let s := { (State.powerOn.setReg flag 62).setReg 1 31 with
      screen := ⟨Grid.stamp 62 31 [0xC0], Grid.stamp 63 31 [0x80], false⟩ }
    let w : Word := 0xDF12
    w.group.val = 0xD ∧ ∃ i e,
      Instruction.ofWord? w = some i ∧ i.execute keys random s = .ok e ∧
      s.screen.fading.lit 63 31 = true ∧ e.state.screen.visible.lit 62 31 = true ∧
      e.state.screen.fading.lit 62 31 = true ∧ e.state.screen.visible.lit 63 31 = true ∧
      e.state.screen.fading.lit 63 31 = false ∧ e.state.screen.stale = true ∧
      e.state.reg flag = 1 ∧ e.state.reg 1 = 31 := by
  intro keys random s w
  have hw : w.group.val = 0xD := by decide
  have hold : s.screen.fading.lit 63 31 = true := by decide +kernel
  have hcorner : s.IsSolid 62 31 := by
    unfold State.IsSolid
    decide +kernel
  have hright : ¬s.IsSolid 63 31 := by
    unfold State.IsSolid
    decide +kernel
  have hwindow : s.InWindow w 62 31 := ⟨0, by decide, 0, by decide, by decide, by decide⟩
  have hfirst : s.InImage w 62 31 :=
    ⟨0, by decide, 0, by decide, by decide +kernel, by decide, by decide⟩
  have hsecond : s.InImage w 63 31 :=
    ⟨0, by decide, 1, by decide, by decide +kernel, by decide, by decide⟩
  obtain ⟨_, i, registers, screen, hi, he, _, hvisible, hfading, hstale, hflag, hother⟩ :=
    sprite_drawn_pixel_by_pixel keys random s hw
  refine ⟨hw, i, _, hi, he, hold, (hvisible 62 31).mpr (Or.inl hcorner),
    (hfading 62 31).mpr ⟨hwindow, iff_of_true hcorner hfirst⟩,
    (hvisible 63 31).mpr (Or.inr hsecond), ?_,
    hstale.mpr (Or.inr (Or.inr ⟨62, 31, hfirst⟩)), ?_, ?_⟩
  · rw [Bool.eq_false_iff]
    intro h
    exact hright (((hfading 63 31).mp h).2.mpr hsecond)
  · rcases hflag with ⟨h, _⟩ | ⟨_, hnone⟩
    · exact h
    · exact absurd ⟨62, 31, hcorner, hfirst⟩ hnone
  · rw [hother 1 (by decide)]
    decide +kernel

end ChipEight
