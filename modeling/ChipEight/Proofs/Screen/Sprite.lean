import Mathlib.Data.List.Nodup
import ChipEight.Screen

namespace ChipEight

/-!
# Where a sprite lies

A sprite of at most 32 rows covers each pixel at most once, so its image consists of
the pixels of its set bits. On the solid part of the screen drawing is exclusive or
with that image: what fades away and what stays visible cancel out.
-/

namespace Grid

/-- The pixels of some bits of each row of a sprite. No pixel comes twice, around the edges or
not. -/
theorem nodup_places (x y : Nat) {rows : Nat} (hrows : rows ≤ 32) {bits : Nat → List Nat}
    (hbits : ∀ k, (bits k).Sublist (List.range 8)) :
    ((List.range rows).flatMap fun k => (bits k).map fun b =>
      (Fin.ofNat 64 (x + b), Fin.ofNat 32 (y + k))).Nodup := by
  have hbit : ∀ {k b}, b ∈ bits k → b < 8 := fun hb => List.mem_range.mp ((hbits _).mem hb)
  rw [List.nodup_flatMap]
  constructor
  -- within a row the columns are less than 64 apart, and the rows less than 32
  · intro k _
    refine List.Nodup.map_on ?_ ((hbits k).nodup List.nodup_range)
    intro b hb b' hb' heq
    have hlt := hbit hb
    have hlt' := hbit hb'
    simp only [Prod.mk.injEq, Fin.ext_iff, Fin.val_ofNat, and_true] at heq
    omega
  · refine List.nodup_range.imp_of_mem ?_
    intro k k' hk hk' hne p hp hp'
    obtain ⟨b, _, rfl⟩ := List.mem_map.mp hp
    obtain ⟨b', _, heq⟩ := List.mem_map.mp hp'
    have hlt := List.mem_range.mp hk
    have hlt' := List.mem_range.mp hk'
    simp only [Prod.mk.injEq, Fin.ext_iff, Fin.val_ofNat] at heq
    omega

theorem getMsbD_toBitVec (b : UInt8) (k : Nat) :
    b.toBitVec.getMsbD k = (decide (k < 8) && b.toNat.testBit (7 - k)) := rfl

/-- The image of a sprite: bit `b` of row `r`, counted from the most significant, lies in
column `x + b` of row `y + r`. -/
theorem lit_stamp_iff (x y : Nat) {sprite : List UInt8} (hlen : sprite.length ≤ 32)
    (c : Fin 64) (r : Fin 32) :
    (stamp x y sprite).lit c r = true ↔
      ∃ k, ∃ hk : k < sprite.length, ∃ b < 8, sprite[k].toNat.testBit (7 - b) = true ∧
        c.val = (x + b) % 64 ∧ r.val = (y + k) % 32 := by
  rw [lit_stamp]
  constructor
  · intro h
    cases hs : sprite[(r.val + (32 - y % 32)) % 32]? with
    | none => simp [hs] at h
    | some byte =>
        obtain ⟨hk, rfl⟩ := List.getElem?_eq_some_iff.mp hs
        rw [hs] at h
        simp only [getMsbD_toBitVec, Bool.and_eq_true, decide_eq_true_eq] at h
        exact ⟨_, hk, _, h.1, h.2, by omega, by omega⟩
  · rintro ⟨k, hk, b, hb, hbit, hc, hr⟩
    have hrow : (r.val + (32 - y % 32)) % 32 = k := by omega
    have hcol : (c.val + (64 - x % 64)) % 64 = b := by omega
    rw [hrow, hcol, List.getElem?_eq_getElem hk]
    simp only [getMsbD_toBitVec, hb, hbit, decide_true, Bool.and_self]

theorem lit_stamp_window {x y : Nat} {sprite : List UInt8} {c : Fin 64} {r : Fin 32}
    (h : (stamp x y sprite).lit c r = true) :
    (stamp x y (sprite.map fun _ => 0xFF)).lit c r = true := by
  rw [lit_stamp] at h ⊢
  rw [List.getElem?_map]
  cases hs : sprite[(r.val + (32 - y % 32)) % 32]? with
  | none => simp [hs] at h
  | some byte =>
      rw [hs] at h
      simp only [getMsbD_toBitVec, Bool.and_eq_true, decide_eq_true_eq] at h
      have hall : ∀ k < 8, (0xFF : UInt8).toNat.testBit (7 - k) = true := by decide
      simp only [Option.map_some, getMsbD_toBitVec, h.1, hall _ h.1, decide_true, Bool.and_self]

/-- The window of a sprite, which its image is part of. -/
theorem lit_stamp_window_iff (x y : Nat) {sprite : List UInt8} (hlen : sprite.length ≤ 32)
    (c : Fin 64) (r : Fin 32) :
    (stamp x y (sprite.map fun _ => 0xFF)).lit c r = true ↔
      ∃ k < sprite.length, ∃ b < 8, c.val = (x + b) % 64 ∧ r.val = (y + k) % 32 := by
  have hall : ∀ b < 8, (0xFF : UInt8).toNat.testBit (7 - b) = true := by decide
  rw [lit_stamp_iff x y (by simpa using hlen)]
  simp only [List.length_map, List.getElem_map]
  constructor
  · rintro ⟨k, hk, b, hb, _, hc, hr⟩
    exact ⟨k, hk, b, hb, hc, hr⟩
  · rintro ⟨k, hk, b, hb, hc, hr⟩
    exact ⟨k, hk, b, hb, hall b hb, hc, hr⟩

theorem isBlank_eq_false_iff (g : Grid) : g.isBlank = false ↔ ∃ x y, g.lit x y = true := by
  have h := not_congr g.isBlank_iff
  simpa using h

end Grid

namespace Screen

theorem solid_draw (s : Screen) (x y : Nat) (sprite : List UInt8) :
    (s.draw x y sprite).solid = s.solid ^^^ Grid.stamp x y sprite := by
  ext c r
  have hw : (Grid.stamp x y sprite).lit c r = true →
      (Grid.stamp x y (sprite.map fun _ => 0xFF)).lit c r = true := Grid.lit_stamp_window
  simp only [lit_solid, draw, Grid.lit_or, Grid.lit_xor, Grid.lit_sdiff]
  -- pixel by pixel, this is a fact about what is solid, in the image and in the window
  revert hw
  generalize (Grid.stamp x y sprite).lit c r = i
  generalize (Grid.stamp x y (sprite.map fun _ => 0xFF)).lit c r = w
  generalize (s.visible.lit c r && !s.fading.lit c r) = l
  revert l i w
  decide

theorem collides_iff (s : Screen) (x y : Nat) (sprite : List UInt8) :
    s.collides x y sprite = true ↔
      ∃ c r, s.solid.lit c r = true ∧ (Grid.stamp x y sprite).lit c r = true := by
  simp only [collides, Bool.not_eq_true', Grid.isBlank_eq_false_iff, Grid.lit_and,
    Bool.and_eq_true]

theorem stale_draw_iff (s : Screen) (x y : Nat) (sprite : List UInt8) :
    (s.draw x y sprite).stale = true ↔
      s.stale = true ∨ (∃ c r, s.visible.lit c r = true ∧ s.fading.lit c r = true) ∨
        (Grid.stamp x y sprite).isBlank = false := by
  simp only [draw, Bool.or_eq_true, Bool.not_eq_true', Grid.isBlank_eq_false_iff, Grid.lit_and,
    Bool.and_eq_true, or_assoc]

end Screen

end ChipEight
