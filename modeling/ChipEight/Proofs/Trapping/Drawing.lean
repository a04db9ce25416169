import ChipEight.Proofs.Screen.Sprite
import ChipEight.Proofs.Trapping.Embedding

namespace ChipEight.Trapping

/-!
# Drawing bit by bit

The two loops that draw a sprite stay inside the screen, and as no pixel is met twice they
leave what combining the whole grids leaves.
-/

namespace Pixels

/-- Turn a pixel on, or leave the picture as it is. -/
def lightedIf (p : Pixels) (on : Bool) (x : Fin 64) (y : Fin 32) : Pixels :=
  Vector.ofFn fun r => Vector.ofFn fun c => p.lit c r || (x == c && y == r) && on

theorem lit_lightedIf (p : Pixels) (on : Bool) (x c : Fin 64) (y r : Fin 32) :
    (p.lightedIf on x y).lit c r = (p.lit c r || decide ((x, y) = (c, r)) && on) := by
  obtain ⟨c, hc⟩ := c
  obtain ⟨r, hr⟩ := r
  have hpair : decide ((x, y) = (⟨c, hc⟩, ⟨r, hr⟩)) = (x == ⟨c, hc⟩ && y == ⟨r, hr⟩) := by
    rw [beq_eq_decide, beq_eq_decide, ← Bool.decide_and, decide_eq_decide, Prod.mk.injEq]
  rw [lightedIf, lit_mk, Vector.getElem_ofFn, Vector.getElem_ofFn, hpair]

@[simp] theorem lightedIf_false (p : Pixels) (x : Fin 64) (y : Fin 32) :
    p.lightedIf false x y = p := by
  apply ext_lit
  intro c r
  rw [lit_lightedIf, Bool.and_false, Bool.or_false]

theorem anyLit_eq_true_iff (p : Pixels) : p.anyLit = true ↔ ∃ x y, p.lit x y = true := by
  simp only [anyLit, Vector.any_eq_true, id_eq]
  constructor
  · rintro ⟨y, hy, x, hx, h⟩
    exact ⟨⟨x, hx⟩, ⟨y, hy⟩, h⟩
  · rintro ⟨x, y, h⟩
    exact ⟨y.val, y.isLt, x.val, x.isLt, h⟩

@[simp] theorem lit_combine (f : Bool → Bool → Bool) (p q : Pixels) (x : Fin 64) (y : Fin 32) :
    (p.combine f q).lit x y = f (p.lit x y) (q.lit x y) := by
  obtain ⟨x, hx⟩ := x
  obtain ⟨y, hy⟩ := y
  simp [lit_mk, combine]

theorem pixel_eq_ok (p : Pixels) (x : Fin 64) (y : Fin 32) :
    p.pixel x.val y.val = .ok (p.lit x y) := by
  simp only [pixel, lookup_of_lt _ y.isLt, ok_bind]
  exact lookup_of_lt _ x.isLt

theorem light_eq_ok (p : Pixels) (x : Fin 64) (y : Fin 32) :
    p.light x.val y.val = .ok (p.lightedIf true x y) := by
  have hset : p.set y.val (p[y.val].set x.val true x.isLt) y.isLt = p.lightedIf true x y := by
    apply ext_lit
    rintro ⟨c, hc⟩ ⟨r, hr⟩
    rw [lit_lightedIf, Bool.and_true, lit_mk, lit_mk]
    simp only [Vector.getElem_set, Prod.mk.injEq, Fin.ext_iff]
    by_cases hy : y.val = r
    · by_cases hx : x.val = c <;> simp [hx, hy]
    · simp [hy]
  simp only [light, lookup_of_lt _ y.isLt, ok_bind, update_of_lt _ x.isLt, update_of_lt _ y.isLt,
    hset]

end Pixels

/-- A bit of a sprite, with the pixel it falls on. -/
structure Dot where
  place : Fin 64 × Fin 32
  on : Bool

/-- The bits of a sprite of some rows, from column `x` of row `y` on and around the edges. -/
def dots (x y rows : Nat) (byte : Nat → UInt8) : List Dot :=
  (List.range rows).flatMap fun k =>
    (List.range 8).map fun b =>
      ⟨(Fin.ofNat 64 (x + b), Fin.ofNat 32 (y + k)), (byte k).toNat.testBit (7 - b)⟩

theorem mem_dots_iff {x y rows : Nat} {byte : Nat → UInt8} {d : Dot} :
    d ∈ dots x y rows byte ↔
      ∃ k < rows, ∃ b < 8, d.place.1.val = (x + b) % 64 ∧ d.place.2.val = (y + k) % 32 ∧
        d.on = (byte k).toNat.testBit (7 - b) := by
  simp only [dots, List.mem_flatMap, List.mem_map, List.mem_range]
  constructor
  · rintro ⟨k, hk, b, hb, rfl⟩
    exact ⟨k, hk, b, hb, rfl, rfl, rfl⟩
  · rintro ⟨k, hk, b, hb, hx, hy, hon⟩
    refine ⟨k, hk, b, hb, ?_⟩
    rcases d with ⟨⟨c, r⟩, on⟩
    cases hon
    congr 2
    · exact Fin.ext hx.symm
    · exact Fin.ext hy.symm

theorem exists_place_eq_iff {x y rows : Nat} {byte : Nat → UInt8} (c : Fin 64) (r : Fin 32) :
    (∃ d ∈ dots x y rows byte, d.place = (c, r)) ↔
      ∃ k < rows, ∃ b < 8, c.val = (x + b) % 64 ∧ r.val = (y + k) % 32 := by
  constructor
  · rintro ⟨⟨_, on⟩, hd, rfl⟩
    obtain ⟨k, hk, b, hb, hc, hr, _⟩ := mem_dots_iff.mp hd
    exact ⟨k, hk, b, hb, hc, hr⟩
  · rintro ⟨k, hk, b, hb, hc, hr⟩
    exact ⟨⟨(c, r), (byte k).toNat.testBit (7 - b)⟩,
      mem_dots_iff.mpr ⟨k, hk, b, hb, hc, hr, rfl⟩, rfl⟩

/-- A sprite of at most 32 rows does not meet itself. -/
theorem nodup_place_dots (x y : Nat) {rows : Nat} (hrows : rows ≤ 32) (byte : Nat → UInt8) :
    ((dots x y rows byte).map Dot.place).Nodup := by
  rw [dots, List.map_flatMap]
  simp only [List.map_map]
  exact Grid.nodup_places x y hrows fun _ => List.Sublist.refl _

namespace Canvas

/-- Draw a bit that lies inside the screen. -/
def dot (c : Canvas) (d : Dot) : Canvas :=
  let old := c.visible.lit d.place.1 d.place.2
  let new := old ^^ d.on
  { visible := c.visible.lightedIf new d.place.1 d.place.2
    fading := c.fading.lightedIf (!new) d.place.1 d.place.2
    stale := c.stale || new != old
    collision := c.collision || old && !new }

theorem shiftRight_and_one (row : UInt8) {places : Nat} (h : places < 8) :
    (row >>> UInt8.ofNat places &&& 1 == 1) = row.toNat.testBit places := by
  have hone : row >>> UInt8.ofNat places &&& 1 = 1 ↔
      (row >>> UInt8.ofNat places &&& 1).toNat = 1 := UInt8.toNat_inj.symm
  have hplaces : (UInt8.ofNat places).toNat % 8 = places := by
    simp only [UInt8.toNat_ofNat']
    omega
  rw [Nat.testBit_eq_decide_div_mod_eq, beq_eq_decide, decide_eq_decide, hone, UInt8.toNat_and,
    UInt8.toNat_shiftRight, hplaces, UInt8.toNat_one, Nat.and_one_is_mod, Nat.shiftRight_eq_div_pow]

theorem plot_eq_ok {x bit : Nat} (hx : x < 256) (hbit : bit < 8) (y : Fin 32) (row : UInt8)
    (c : Canvas) :
    plot x y.val row c bit =
      .ok (c.dot ⟨(Fin.ofNat 64 (x + bit), y), row.toNat.testBit (7 - bit)⟩) := by
  have hcolumn : addSize x bit = .ok (x + bit) := addSize_of_lt (by unfold sizeLimit; omega)
  have hplaces : subSize 7 bit = .ok (7 - bit) := subSize_of_le (by omega)
  have hshift : 7 - bit < 8 := by omega
  have hpixel (p : Pixels) := p.pixel_eq_ok (Fin.ofNat 64 (x + bit)) y
  have hlight (p : Pixels) := p.light_eq_ok (Fin.ofNat 64 (x + bit)) y
  rw [Fin.val_ofNat] at hpixel hlight
  simp only [plot, hcolumn, hplaces, ok_bind, shiftRight8_of_lt row hshift,
    shiftRight_and_one row hshift, hpixel, hlight, pure_eq_ok, dot]
  cases c.visible.lit (Fin.ofNat 64 (x + bit)) y ^^ row.toNat.testBit (7 - bit) with
  | false => simp only [Bool.false_eq_true, if_false, Bool.not_false, Pixels.lightedIf_false]
  | true => simp only [if_true, Bool.not_true, Pixels.lightedIf_false]

/-- The rounds of the loops are the bits of the sprite in order. -/
theorem foldlM_plotRow {s : State} {x y rows : Nat} {byte : Nat → UInt8} (hx : x < 256)
    (hy : y < 256) (hrows : rows ≤ 32)
    (hread : ∀ k < rows, s.read (s.index + UInt16.ofNat k) = .ok (byte k)) (c : Canvas) :
    (List.range rows).foldlM (plotRow s x y) c = .ok ((dots x y rows byte).foldl dot c) := by
  rw [dots, List.foldl_flatMap]
  apply foldlM_eq_ok
  intro k hk c
  have hlt := List.mem_range.mp hk
  have hrow : addSize y k = .ok (y + k) := addSize_of_lt (by unfold sizeLimit; omega)
  simp only [plotRow, hread k hlt, hrow, ok_bind, List.foldl_map]
  apply foldlM_eq_ok
  intro b hb c
  exact plot_eq_ok hx (List.mem_range.mp hb) (Fin.ofNat 32 (y + k)) _ c

theorem lit_visible_dot (c : Canvas) (d : Dot) (x : Fin 64) (y : Fin 32) :
    (c.dot d).visible.lit x y = (c.visible.lit x y || decide (d.place = (x, y)) && d.on) := by
  rw [dot, Pixels.lit_lightedIf]
  by_cases h : d.place = (x, y)
  · rw [h]
    cases c.visible.lit x y <;> simp
  · simp [h]

theorem lit_fading_dot (c : Canvas) (d : Dot) (x : Fin 64) (y : Fin 32) :
    (c.dot d).fading.lit x y =
      (c.fading.lit x y || decide (d.place = (x, y)) && c.visible.lit x y == d.on) := by
  rw [dot, Pixels.lit_lightedIf]
  by_cases h : d.place = (x, y)
  · rw [h]
    cases c.fading.lit x y <;> cases c.visible.lit x y <;> simp
  · simp [h]

theorem stale_dot (c : Canvas) (d : Dot) : (c.dot d).stale = (c.stale || d.on) := by
  cases hold : c.visible.lit d.place.1 d.place.2 <;> cases hon : d.on <;> simp [dot, hold, hon]

theorem collision_dot (c : Canvas) (d : Dot) :
    (c.dot d).collision = (c.collision || c.visible.lit d.place.1 d.place.2 && d.on) := by
  cases hold : c.visible.lit d.place.1 d.place.2 <;> cases hon : d.on <;> simp [dot, hold, hon]

theorem lit_visible_foldl_dot (l : List Dot) (c : Canvas) (x : Fin 64) (y : Fin 32) :
    (l.foldl dot c).visible.lit x y = true ↔
      c.visible.lit x y = true ∨ ∃ d ∈ l, d.place = (x, y) ∧ d.on = true := by
  induction l generalizing c with
  | nil => simp
  | cons d rest ih => simp [ih, lit_visible_dot, or_assoc]

theorem stale_foldl_dot (l : List Dot) (c : Canvas) :
    (l.foldl dot c).stale = true ↔ c.stale = true ∨ ∃ d ∈ l, d.on = true := by
  induction l generalizing c with
  | nil => simp
  | cons d rest ih => simp [ih, stale_dot, or_assoc]

/-- Until its turn comes, a pixel is as it was at the start. -/
theorem lit_visible_dot_of_ne {c : Canvas} {d e : Dot} (h : d.place ≠ e.place) :
    (c.dot d).visible.lit e.place.1 e.place.2 = c.visible.lit e.place.1 e.place.2 := by
  rw [lit_visible_dot, decide_eq_false h, Bool.false_and, Bool.or_false]

theorem lit_fading_foldl_dot {l : List Dot} (h : (l.map Dot.place).Nodup) (c : Canvas)
    (x : Fin 64) (y : Fin 32) :
    (l.foldl dot c).fading.lit x y = true ↔
      c.fading.lit x y = true ∨ ∃ d ∈ l, d.place = (x, y) ∧ c.visible.lit x y = d.on := by
  induction l generalizing c with
  | nil => simp
  | cons d rest ih =>
      obtain ⟨hd, hrest⟩ := List.nodup_cons.mp h
      -- what a later dot finds at its pixel is what was there before this one
      have hlater : ∀ e ∈ rest, e.place = (x, y) →
          (c.dot d).visible.lit x y = c.visible.lit x y := by
        intro e he hplace
        have hne : d.place ≠ e.place := fun heq => hd (heq ▸ List.mem_map_of_mem he)
        have hlit := c.lit_visible_dot_of_ne hne
        rwa [hplace] at hlit
      have hexists : (∃ e ∈ rest, e.place = (x, y) ∧ (c.dot d).visible.lit x y = e.on) ↔
          ∃ e ∈ rest, e.place = (x, y) ∧ c.visible.lit x y = e.on := by
        refine exists_congr fun e => and_congr_right fun he => and_congr_right fun hplace => ?_
        rw [hlater e he hplace]
      simp [ih hrest, hexists, lit_fading_dot, or_assoc]

theorem collision_foldl_dot {l : List Dot} (h : (l.map Dot.place).Nodup) (c : Canvas) :
    (l.foldl dot c).collision = true ↔ c.collision = true ∨
      ∃ d ∈ l, c.visible.lit d.place.1 d.place.2 = true ∧ d.on = true := by
  induction l generalizing c with
  | nil => simp
  | cons d rest ih =>
      obtain ⟨hd, hrest⟩ := List.nodup_cons.mp h
      have hexists : (∃ e ∈ rest, (c.dot d).visible.lit e.place.1 e.place.2 = true ∧ e.on = true) ↔
          ∃ e ∈ rest, c.visible.lit e.place.1 e.place.2 = true ∧ e.on = true := by
        refine exists_congr fun e => and_congr_right fun he => ?_
        have hne : d.place ≠ e.place := fun heq => hd (heq ▸ List.mem_map_of_mem he)
        rw [lit_visible_dot_of_ne hne]
      simp [ih hrest, hexists, collision_dot, or_assoc]

end Canvas

section Stamp

variable {x y : Nat} {sprite : List UInt8} {byte : Nat → UInt8}

theorem lit_stamp_iff_exists_dot (hlen : sprite.length ≤ 32)
    (hbyte : ∀ k (hk : k < sprite.length), sprite[k] = byte k) (c : Fin 64) (r : Fin 32) :
    (Grid.stamp x y sprite).lit c r = true ↔
      ∃ d ∈ dots x y sprite.length byte, d.place = (c, r) ∧ d.on = true := by
  rw [Grid.lit_stamp_iff x y hlen]
  constructor
  · rintro ⟨k, hk, b, hb, hbit, hc, hr⟩
    rw [hbyte k hk] at hbit
    exact ⟨⟨(c, r), true⟩, mem_dots_iff.mpr ⟨k, hk, b, hb, hc, hr, hbit.symm⟩, rfl, rfl⟩
  · rintro ⟨⟨_, _⟩, hd, rfl, rfl⟩
    obtain ⟨k, hk, b, hb, hc, hr, hbit⟩ := mem_dots_iff.mp hd
    rw [← hbyte k hk] at hbit
    exact ⟨k, hk, b, hb, hbit.symm, hc, hr⟩

theorem lit_window_iff_exists_dot (hlen : sprite.length ≤ 32) (c : Fin 64) (r : Fin 32) :
    (Grid.stamp x y (sprite.map fun _ => 0xFF)).lit c r = true ↔
      ∃ d ∈ dots x y sprite.length byte, d.place = (c, r) := by
  rw [Grid.lit_stamp_window_iff x y hlen, exists_place_eq_iff]

theorem on_eq_lit_stamp (hlen : sprite.length ≤ 32)
    (hbyte : ∀ k (hk : k < sprite.length), sprite[k] = byte k) {d : Dot}
    (hd : d ∈ dots x y sprite.length byte) :
    d.on = (Grid.stamp x y sprite).lit d.place.1 d.place.2 := by
  have hnodup := nodup_place_dots x y hlen byte
  rw [Bool.eq_iff_iff, lit_stamp_iff_exists_dot hlen hbyte]
  constructor
  · intro hon
    exact ⟨d, hd, rfl, hon⟩
  · rintro ⟨e, he, hplace, hon⟩
    rwa [List.inj_on_of_nodup_map hnodup he hd hplace] at hon

end Stamp

namespace Canvas

def ofScreen (s : Screen) (collision : Bool) : Canvas :=
  ⟨.ofGrid s.visible, .ofGrid s.fading, s.stale, collision⟩

section Flushed

variable (s : ChipEight.State)

theorem lit_visible_flushed (c : Fin 64) (r : Fin 32) :
    (flushed (.ofState s)).visible.lit c r = s.screen.solid.lit c r := by
  simp [flushed, State.ofState]

theorem stale_flushed :
    (flushed (.ofState s)).stale =
      (s.screen.stale || !(s.screen.visible &&& s.screen.fading).isBlank) := by
  have hany : ((Pixels.ofGrid s.screen.visible).combine (· && ·)
      (Pixels.ofGrid s.screen.fading)).anyLit =
        !(s.screen.visible &&& s.screen.fading).isBlank := by
    rw [Bool.eq_iff_iff, Pixels.anyLit_eq_true_iff, Bool.not_eq_true', Grid.isBlank_eq_false_iff]
    simp
  simp only [flushed, State.ofState, hany]

/-- On the flushed screen the bits of a sprite leave what the sprite leaves as a whole. -/
theorem foldl_dot_flushed {x y : Nat} {sprite : List UInt8} {byte : Nat → UInt8}
    (hlen : sprite.length ≤ 32) (hbyte : ∀ k (hk : k < sprite.length), sprite[k] = byte k) :
    (dots x y sprite.length byte).foldl dot (flushed (.ofState s)) =
      ofScreen (s.screen.draw x y sprite) (s.screen.collides x y sprite) := by
  have hnodup := nodup_place_dots x y hlen byte
  apply Canvas.ext
  case visible =>
    apply Pixels.ext_lit
    intro c r
    rw [Bool.eq_iff_iff, lit_visible_foldl_dot, lit_visible_flushed,
      ← lit_stamp_iff_exists_dot hlen hbyte]
    simp only [ofScreen, Screen.draw, Pixels.lit_ofGrid, Grid.lit_or, Bool.or_eq_true]
  case fading =>
    apply Pixels.ext_lit
    intro c r
    -- the one dot on a pixel is on exactly if the image is lit there
    have hexists : (∃ d ∈ dots x y sprite.length byte, d.place = (c, r) ∧
        (flushed (.ofState s)).visible.lit c r = d.on) ↔
          (∃ d ∈ dots x y sprite.length byte, d.place = (c, r)) ∧
            s.screen.solid.lit c r = (Grid.stamp x y sprite).lit c r := by
      rw [lit_visible_flushed]
      constructor
      · rintro ⟨⟨_, on⟩, hd, rfl, hon⟩
        exact ⟨⟨_, hd, rfl⟩, hon.trans (on_eq_lit_stamp hlen hbyte hd)⟩
      · rintro ⟨⟨⟨_, on⟩, hd, rfl⟩, heq⟩
        exact ⟨_, hd, rfl, heq.trans (on_eq_lit_stamp hlen hbyte hd).symm⟩
    rw [Bool.eq_iff_iff, lit_fading_foldl_dot hnodup, hexists, ← lit_window_iff_exists_dot hlen]
    simp [ofScreen, Screen.draw, flushed]
  case stale =>
    have hexists : (∃ d ∈ dots x y sprite.length byte, d.on = true) ↔
        (Grid.stamp x y sprite).isBlank = false := by
      simp only [Grid.isBlank_eq_false_iff, lit_stamp_iff_exists_dot hlen hbyte]
      constructor
      · rintro ⟨d, hd, hon⟩
        exact ⟨d.place.1, d.place.2, d, hd, rfl, hon⟩
      · rintro ⟨_, _, d, hd, _, hon⟩
        exact ⟨d, hd, hon⟩
    rw [Bool.eq_iff_iff, stale_foldl_dot, stale_flushed, hexists]
    simp only [ofScreen, Screen.draw, Bool.or_eq_true, Bool.not_eq_true']
  case collision =>
    rw [Bool.eq_iff_iff, collision_foldl_dot hnodup, ofScreen, Screen.collides_iff]
    simp only [lit_visible_flushed, lit_stamp_iff_exists_dot hlen hbyte]
    constructor
    · rintro (hnot | ⟨d, hd, hsolid, hon⟩)
      · cases hnot
      · exact ⟨d.place.1, d.place.2, hsolid, d, hd, rfl, hon⟩
    · rintro ⟨_, _, hsolid, ⟨_, on⟩, hd, rfl, hon⟩
      exact Or.inr ⟨_, hd, hsolid, hon⟩

/-- The loops over the rows and bits of a sprite do not trap, and draw it. -/
theorem foldlM_plotRow_flushed {x y rows : Nat} (hx : x < 256) (hy : y < 256) (hrows : rows ≤ 32) :
    let sprite := s.memory.readList s.index rows
    (List.range rows).foldlM (plotRow (.ofState s) x y) (flushed (.ofState s)) =
      .ok (ofScreen (s.screen.draw x y sprite) (s.screen.collides x y sprite)) := by
  intro sprite
  have hlen : sprite.length = rows := s.memory.length_readList s.index rows
  have hread : ∀ k < rows, (State.ofState s).read ((State.ofState s).index + UInt16.ofNat k) =
      .ok (s.memory.read (s.index + UInt16.ofNat k)) :=
    fun k _ => State.read_ofState s (s.index + UInt16.ofNat k)
  have hloops := foldlM_plotRow hx hy hrows hread (flushed (.ofState s))
  have hbyte : ∀ k (hk : k < sprite.length), sprite[k] = s.memory.read (s.index + UInt16.ofNat k) :=
    fun k hk => s.memory.getElem_readList s.index rows k hk
  have hdrawn := foldl_dot_flushed (x := x) (y := y) s (hlen ▸ hrows) hbyte
  rw [hlen] at hdrawn
  rw [hloops, hdrawn]

end Flushed

end Canvas

end ChipEight.Trapping
