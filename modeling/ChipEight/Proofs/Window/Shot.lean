import Mathlib.Data.List.Basic
import Mathlib.Data.List.Induction
import ChipEight.Proofs.Graphics.Software
import ChipEight.Proofs.Window.Frame
import ChipEight.Proofs.Window.Library

namespace ChipEight

/-!
# What a window shows

A shot of a window is read back to the grid that was presented last. The library is taken to make
windows and textures of the sizes that are asked for, and to stretch by the nearest texels; that a
square of the window then is one pixel of the grid is a fact about dividing, and that nothing is
left of what the window showed before follows from a texture covering all of it.
-/

/-! ## Packed bits -/

/-- A bit of some bytes, counted from the most significant place of the first. -/
def bitAt (bytes : List UInt8) (k : Nat) : Bool :=
  match bytes[k / 8]? with
  | some b => b.toBitVec.getMsbD (k % 8)
  | none => false

theorem bitAt_cons_of_lt (b : UInt8) (bytes : List UInt8) {k : Nat} (h : k < 8) :
    bitAt (b :: bytes) k = b.toBitVec.getMsbD k := by
  rw [bitAt, Nat.div_eq_of_lt h, Nat.mod_eq_of_lt h]
  rfl

theorem bitAt_cons_add_eight (b : UInt8) (bytes : List UInt8) (k : Nat) :
    bitAt (b :: bytes) (k + 8) = bitAt bytes k := by
  rw [bitAt, bitAt, Nat.add_div_right k (by decide), Nat.add_mod_right, List.getElem?_cons_succ]

/-- Bits shifted into a number one after the other. -/
def shiftedIn (bits : List Bool) : Nat :=
  bits.foldl (fun (n : Nat) (bit : Bool) => 2 * n + bit.toNat) 0

/-- The last bit that is shifted in stands in the lowest place. -/
theorem testBit_shiftedIn (bits : List Bool) {i : Nat} (h : i < bits.length) :
    (shiftedIn bits).testBit (bits.length - 1 - i) = bits[i] := by
  induction bits using List.reverseRecOn with
  | nil => exact absurd h (Nat.not_lt_zero i)
  | append_singleton bits bit ih =>
      have hlast : shiftedIn (bits ++ [bit]) = 2 * shiftedIn bits + bit.toNat := by
        simp [shiftedIn]
      have hlength : (bits ++ [bit]).length = bits.length + 1 := by simp
      have hbit := bit.toNat_lt
      rcases Nat.lt_or_ge i bits.length with hlt | hge
      · have hplace : (bits ++ [bit]).length - 1 - i = bits.length - 1 - i + 1 := by omega
        have hhalf : (2 * shiftedIn bits + bit.toNat) / 2 = shiftedIn bits := by omega
        rw [hlast, hplace, Nat.testBit_add_one, hhalf, ih hlt, List.getElem_append_left hlt]
      · have hplace : (bits ++ [bit]).length - 1 - i = 0 := by omega
        obtain rfl : i = bits.length := by omega
        rw [hlast, hplace, Nat.testBit_zero, List.getElem_concat_length rfl]
        cases bit <;> simp

theorem packBits_append {front : List Bool} (hfront : front.length = 8) (rest : List Bool) :
    packBits (front ++ rest) = UInt8.ofNat (shiftedIn front) :: packBits rest := by
  match front, hfront with
  | [a, b, c, d, e, f, g, h], _ => rfl

theorem getMsbD_ofNat (n : Nat) {k : Nat} (h : k < 8) :
    (UInt8.ofNat n).toBitVec.getMsbD k = n.testBit (7 - k) := by
  have hlow : 8 - 1 - k < 8 := by omega
  change (BitVec.ofNat 8 n).getMsbD k = _
  rw [BitVec.getMsbD, BitVec.getLsbD_ofNat, decide_eq_true h, decide_eq_true hlow, Bool.true_and,
    Bool.true_and]

theorem bitAt_packBits_of_lt {front : List Bool} (hfront : front.length = 8) (rest : List Bool)
    {k : Nat} (h : k < 8) : bitAt (packBits (front ++ rest)) k = front[k]?.getD false := by
  have hlt : k < front.length := hfront ▸ h
  have hplace : front.length - 1 - k = 7 - k := by omega
  rw [packBits_append hfront, bitAt_cons_of_lt _ _ h, getMsbD_ofNat _ h, ← hplace,
    testBit_shiftedIn front hlt, List.getElem?_eq_getElem hlt, Option.getD_some]

/-- Whole bytes of bits are packed into that many bytes, and are found there where they stood. -/
theorem packBits_whole {bits : List Bool} {count : Nat} (h : bits.length = 8 * count) :
    (packBits bits).length = count ∧ ∀ k, bitAt (packBits bits) k = bits[k]?.getD false := by
  induction count generalizing bits with
  | zero =>
      obtain rfl := List.length_eq_zero_iff.mp h
      exact ⟨rfl, fun k => rfl⟩
  | succ count ih =>
      obtain ⟨front, rest, rfl, hfront⟩ : ∃ front rest, bits = front ++ rest ∧ front.length = 8 :=
        ⟨bits.take 8, bits.drop 8, (List.take_append_drop 8 bits).symm, by
          rw [List.length_take]
          omega⟩
      have hrest : rest.length = 8 * count := by
        rw [List.length_append] at h
        omega
      obtain ⟨hlength, hbits⟩ := ih hrest
      constructor
      · rw [packBits_append hfront, List.length_cons, hlength]
      · intro k
        rcases Nat.lt_or_ge k 8 with hlt | hge
        · rw [bitAt_packBits_of_lt hfront rest hlt, List.getElem?_append_left (hfront ▸ hlt)]
        · obtain ⟨j, rfl⟩ := Nat.exists_eq_add_of_le' hge
          rw [packBits_append hfront, bitAt_cons_add_eight, hbits,
            List.getElem?_append_right (hfront ▸ hge), hfront, Nat.add_sub_cancel]

/-! ## Shots -/

theorem lt_mul_of_div_eq {count scale p : Nat} (hpos : 0 < scale) {x : Fin count}
    (h : p / scale = x.val) : p < count * scale := by
  rw [← Nat.div_lt_iff_lt_mul hpos, h]
  exact x.isLt

namespace Shot

/-- A pixel of the window, read off a shot: rows that are not listed are black. -/
def pixel (shot : Shot) (px py : Nat) : Bool :=
  shot.any fun row => row.1 == py && bitAt row.2 px

/-- The grid that a shot of a window comes from, read off the corners of its squares. -/
def lit (scale : Nat) (shot : Shot) (x : Fin 64) (y : Fin 32) : Bool :=
  shot.pixel (scale * x.val) (scale * y.val)

/-- A shot shows a grid: it lists, from the top, the rows that are not all black, each bit of them
the pixel of the grid that lies there. -/
structure Shows (scale : Nat) (shot : Shot) (g : Grid) : Prop where
  ascending : shot.Pairwise fun row row' => row.1 < row'.1
  inside : ∀ row ∈ shot, row.1 < 32 * scale
  whole : ∀ row ∈ shot, row.2.length = 8 * scale
  white : ∀ row ∈ shot, ∃ px < 64 * scale, bitAt row.2 px = true
  pixels : ∀ px py (x : Fin 64) (y : Fin 32), px / scale = x.val → py / scale = y.val →
    shot.pixel px py = g.lit x y

theorem Shows.lit_eq {scale : Nat} (hpos : 0 < scale) {shot : Shot} {g : Grid}
    (h : shot.Shows scale g) : shot.lit scale = g.lit := by
  funext x y
  apply h.pixels
  · exact Nat.mul_div_cancel_left x.val hpos
  · exact Nat.mul_div_cancel_left y.val hpos

end Shot

namespace Window

variable {G : Graphics}

/-- A window is as large as a scale wants it, and each pixel of a grid is a square of it. -/
structure Shows (scale : Nat) (w : Window G) (g : Grid) : Prop where
  width : w.width = 64 * scale
  height : w.height = 32 * scale
  pixels : ∀ px py (x : Fin 64) (y : Fin 32), px / scale = x.val → py / scale = y.val →
    w.pixel px py = if g.lit x y then .white else .black

section Rows

variable (w : Window G)

theorem length_pixelRow (py : Nat) : (w.pixelRow py).length = w.width := by
  rw [pixelRow, List.length_map, List.length_range]

theorem mem_shot_iff (py : Nat) (bytes : List UInt8) :
    (py, bytes) ∈ w.shot ↔ py < w.height ∧ (w.pixelRow py).any id = true ∧
      packBits (w.pixelRow py) = bytes := by
  simp only [shot, List.mem_filterMap, List.mem_range, listedRow]
  constructor
  · rintro ⟨row, hrow, hlisted⟩
    obtain ⟨bits, hbits, hpair⟩ := Option.map_eq_some_iff.mp hlisted
    obtain ⟨rfl, rfl⟩ := Prod.mk.inj hpair
    obtain ⟨hwhite, hpacked⟩ := Option.ite_none_right_eq_some.mp hbits
    exact ⟨hrow, hwhite, Option.some.inj hpacked⟩
  · rintro ⟨hrow, hwhite, rfl⟩
    exact ⟨py, hrow, by rw [if_pos hwhite, Option.map_some]⟩

theorem ascending_shot : w.shot.Pairwise fun row row' => row.1 < row'.1 := by
  rw [shot, List.pairwise_filterMap]
  refine List.pairwise_lt_range.imp ?_
  intro py py' hlt row hrow row' hrow'
  obtain ⟨_, _, rfl⟩ := Option.map_eq_some_iff.mp hrow
  obtain ⟨_, _, rfl⟩ := Option.map_eq_some_iff.mp hrow'
  exact hlt

/-- A row with a white pixel is listed, and no other. -/
theorem any_pixelRow_iff (py : Nat) :
    (w.pixelRow py).any id = true ↔ ∃ px < w.width, w.pixel px py = .white := by
  simp [pixelRow, List.any_map]

variable {count : Nat} (hwhole : w.width = 8 * count)
include hwhole

theorem bitAt_pixelRow {px : Nat} (hpx : px < w.width) (py : Nat) :
    bitAt (packBits (w.pixelRow py)) px = (w.pixel px py == .white) := by
  have hlength : (w.pixelRow py).length = 8 * count := (w.length_pixelRow py).trans hwhole
  rw [(packBits_whole hlength).2, pixelRow, List.getElem?_map, List.getElem?_range hpx]
  rfl

/-- Every pixel of a window is found in its shot. -/
theorem pixel_shot {px py : Nat} (hpx : px < w.width) (hpy : py < w.height) :
    w.shot.pixel px py = (w.pixel px py == .white) := by
  rw [Bool.eq_iff_iff, Shot.pixel, List.any_eq_true]
  constructor
  · rintro ⟨⟨number, bytes⟩, hmem, hpixel⟩
    obtain ⟨-, -, rfl⟩ := (w.mem_shot_iff number bytes).mp hmem
    obtain ⟨hnumber, hbit⟩ := Bool.and_eq_true_iff.mp hpixel
    obtain rfl : number = py := beq_iff_eq.mp hnumber
    rwa [w.bitAt_pixelRow hwhole hpx] at hbit
  · intro hwhite
    have hlisted := (w.any_pixelRow_iff py).mpr ⟨px, hpx, beq_iff_eq.mp hwhite⟩
    refine ⟨(py, packBits (w.pixelRow py)), (w.mem_shot_iff _ _).mpr ⟨hpy, hlisted, rfl⟩, ?_⟩
    rw [w.bitAt_pixelRow hwhole hpx, beq_self_eq_true, Bool.true_and]
    exact hwhite

end Rows

section Shows

variable {w w' : Window G} {g : Grid} {scale : Nat} (h : w.Shows scale g)
include h

theorem Shows.width_eq : w.width = 8 * (8 * scale) := by
  rw [h.width]
  omega

theorem Shows.shot (hpos : 0 < scale) : w.shot.Shows scale g where
  ascending := w.ascending_shot
  inside := by
    rintro ⟨py, bytes⟩ hmem
    exact h.height ▸ ((w.mem_shot_iff py bytes).mp hmem).1
  whole := by
    rintro ⟨py, bytes⟩ hmem
    obtain ⟨-, -, rfl⟩ := (w.mem_shot_iff py bytes).mp hmem
    exact (packBits_whole ((w.length_pixelRow py).trans h.width_eq)).1
  white := by
    rintro ⟨py, bytes⟩ hmem
    obtain ⟨-, hlisted, rfl⟩ := (w.mem_shot_iff py bytes).mp hmem
    obtain ⟨px, hpx, hwhite⟩ := (w.any_pixelRow_iff py).mp hlisted
    refine ⟨px, h.width ▸ hpx, ?_⟩
    rw [w.bitAt_pixelRow h.width_eq hpx, hwhite, beq_self_eq_true]
  pixels := by
    intro px py x y hx hy
    have hpx : px < w.width := h.width ▸ lt_mul_of_div_eq hpos hx
    have hpy : py < w.height := h.height ▸ lt_mul_of_div_eq hpos hy
    rw [w.pixel_shot h.width_eq hpx hpy, h.pixels px py x y hx hy]
    cases g.lit x y <;> decide

/-- What a window shows decides its shot. -/
theorem Shows.shot_eq (h' : w'.Shows scale g) : w.shot = w'.shot := by
  have hrow : ∀ py < w.height, w.pixelRow py = w'.pixelRow py := by
    intro py hpy
    rw [pixelRow, pixelRow, h.width, h'.width]
    refine List.map_congr_left fun px hpx => ?_
    have hx : px / scale < 64 := Nat.div_lt_of_lt_mul (Nat.mul_comm 64 _ ▸ List.mem_range.mp hpx)
    have hy : py / scale < 32 := Nat.div_lt_of_lt_mul (Nat.mul_comm 32 _ ▸ h.height ▸ hpy)
    rw [h.pixels px py ⟨_, hx⟩ ⟨_, hy⟩ rfl rfl, h'.pixels px py ⟨_, hx⟩ ⟨_, hy⟩ rfl rfl]
  rw [Window.shot, Window.shot, h.height, h'.height]
  refine List.filterMap_congr fun py hpy => ?_
  have hlisted : w.listedRow py = w'.listedRow py := by
    rw [listedRow, listedRow, hrow py (h.height ▸ List.mem_range.mp hpy)]
  rw [hlisted]

end Shows

/-! ## Presenting -/

/-- The window after it was given some grids. -/
def after (w : Window G) (frames : List Grid) : Window G :=
  frames.foldl (fun w g => (w.present g).1) w

theorem getElem?_shots (w : Window G) (frames : List Grid) (k : Nat) :
    (w.shots frames)[k]? =
      frames[k]?.map fun g => ((w.after (frames.take k)).present g).1.shot := by
  induction frames generalizing w k with
  | nil => rfl
  | cons g rest ih =>
      cases k with
      | zero => rfl
      | succ k => exact ih (w.present g).1 k

section Present

variable {scale : Nat} (hpos : 0 < scale) (htextures : G.HoldsTextures 64 32)
  (hstretches : G.Stretches 64 32 (64 * scale) (32 * scale)) {w : Window G}
  (hwidth : w.width = 64 * scale) (hheight : w.height = 32 * scale)
include hpos htextures hstretches hwidth hheight

theorem shows_present (g : Grid) :
    (w.present g).2 = none ∧ (w.present g).1.Shows scale g := by
  obtain ⟨t, hcreate, t', hlock, hcolumns, hrows, hpitch, hbytes⟩ := htextures w.canvas
  obtain ⟨canvas, hcopy, hwidth', hheight', hpixel⟩ :=
    hstretches w.canvas (t'.fill (chunks (3 * gridWidth) g.toBytes)) hwidth hheight
      ((t'.width_fill _).trans hcolumns) ((t'.height_fill _).trans hrows)
  rw [present_of_steps hcreate hlock hcopy]
  refine ⟨rfl, hwidth', hheight', ?_⟩
  intro px py x y hx hy
  have hnearest := hpixel px (lt_mul_of_div_eq hpos hx) py (lt_mul_of_div_eq hpos hy)
  rw [Graphics.nearest_mul (by decide), Graphics.nearest_mul (by decide), hx, hy,
    texel_fill g hpitch hbytes] at hnearest
  exact hnearest

theorem size_after (before : List Grid) :
    (w.after before).width = 64 * scale ∧ (w.after before).height = 32 * scale := by
  induction before generalizing w with
  | nil => exact ⟨hwidth, hheight⟩
  | cons g rest ih =>
      obtain ⟨-, hshows⟩ := shows_present hpos htextures hstretches hwidth hheight g
      exact ih hshows.width hshows.height

/-- Whatever a window showed before, it shows the grid that it is given. -/
theorem shows_after (before : List Grid) (g : Grid) :
    ((w.after before).present g).2 = none ∧ ((w.after before).present g).1.Shows scale g := by
  obtain ⟨hwidth', hheight'⟩ := size_after hpos htextures hstretches hwidth hheight before
  exact shows_present hpos htextures hstretches hwidth' hheight' g

theorem shot_present_injective {g g' : Grid}
    (h : (w.present g).1.shot = (w.present g').1.shot) : g = g' := by
  have hread : ∀ g, (w.present g).1.shot.lit scale = g.lit := fun g =>
    ((shows_present hpos htextures hstretches hwidth hheight g).2.shot hpos).lit_eq hpos
  apply Grid.ext
  intro x y
  rw [← hread g, ← hread g', h]

/-- The shots of a window are those of the frames, each by itself. -/
theorem getElem?_shots_eq_iff (frames frames' : List Grid) (k k' : Nat) :
    (w.shots frames)[k]? = (w.shots frames')[k']? ↔ frames[k]? = frames'[k']? := by
  have hshot : ∀ before g, ((w.after before).present g).1.shot = (w.present g).1.shot :=
    fun before g =>
      (shows_after hpos htextures hstretches hwidth hheight before g).2.shot_eq
        (shows_present hpos htextures hstretches hwidth hheight g).2
  simp only [getElem?_shots, hshot]
  exact Option.map_inj_right fun g g' =>
    shot_present_injective hpos htextures hstretches hwidth hheight

end Present

end Window

/-- What can be seen of a window. If the library makes windows and textures of the sizes that are
asked for, and stretches textures by the nearest texels, a window is as large as its scale wants;
whatever it showed before, it shows the grid that it is given, every pixel of it a square of white
or black pixels; and its shots, one for each frame, list exactly these and are read back to the
frames, so that two shots are equal only if they are of one frame. If the library refuses windows
that are too wide, no window of two to the power 31 pixels or more is made, and the error has the
width that was asked for, as long as that is a number of 32 bits. -/
theorem window_shows_frames (G : Graphics) (scale : Nat) :
    (1 ≤ scale → G.MakesSized (64 * scale) (32 * scale) → G.HoldsTextures 64 32 →
      G.Stretches 64 32 (64 * scale) (32 * scale) →
      ∃ w : Window G, Window.openOn G scale = .ok w ∧
        w.width = 64 * scale ∧ w.height = 32 * scale ∧
        (∀ before g, ((w.after before).present g).2 = none ∧
          ((w.after before).present g).1.Shows scale g) ∧
        (∀ (frames : List Grid) (k : Nat) g, frames[k]? = some g →
          ∃ shot, (w.shots frames)[k]? = some shot ∧ shot.Shows scale g ∧
            shot.lit scale = g.lit) ∧
        ∀ (frames frames' : List Grid) (k k' : Nat),
          (w.shots frames)[k]? = (w.shots frames')[k']? ↔ frames[k]? = frames'[k']?) ∧
    (scale < 67108864 → 2147483648 ≤ 64 * scale → G.RefusesWide →
      Window.openOn G scale = .error (.tooWide (64 * scale))) := by
  refine ⟨?_, Window.openOn_of_refusesWide⟩
  intro hpos hmakes htextures hstretches
  obtain ⟨canvas, hmake, hwidth, hheight⟩ := hmakes Window.title
  refine ⟨⟨canvas⟩, Window.openOn_of_make hmake, hwidth, hheight,
    Window.shows_after hpos htextures hstretches hwidth hheight, ?_,
    Window.getElem?_shots_eq_iff hpos htextures hstretches hwidth hheight⟩
  intro frames k g hframe
  obtain ⟨-, hshows⟩ :=
    Window.shows_after hpos htextures hstretches hwidth hheight (frames.take k) g
  refine ⟨_, ?_, hshows.shot hpos, (hshows.shot hpos).lit_eq hpos⟩
  rw [Window.getElem?_shots, hframe, Option.map_some]

/-- The lower right corner behind a blank frame in a window of `software`, and a window that is
refused. A library that finds the nearest texels meets the assumptions up to the largest scale at
which no window is too wide. -/
theorem window_shows_frames_of_corner :
    let corner := Grid.stamp 63 31 [0x80]
    let library := Graphics.inMemory 2147483647 Graphics.nearest
    (∃ w, Window.make 10 = .ok w ∧ w.width = 640 ∧ w.height = 320 ∧
      ∃ shot, (w.shots [.blank, corner])[1]? = some shot ∧ shot.Shows 10 corner ∧
        shot.lit 10 = corner.lit) ∧
    Window.make 33554432 = .error (.tooWide 2147483648) ∧
    ∃ w, Window.openOn library 33554431 = .ok w ∧ w.width = 2147483584 := by
  intro corner library
  refine ⟨?_, ?_, ?_⟩
  · obtain ⟨w, hmake, hwidth, hheight, -, hshots, -⟩ :=
      (window_shows_frames .software 10).1 (by decide)
        (Graphics.inMemory_makesSized (by decide) (by decide) (by decide))
        (Graphics.inMemory_holdsTextures (by decide) (by decide))
        (Graphics.software_stretches (by decide) (by decide))
    exact ⟨w, hmake, hwidth, hheight, hshots [.blank, corner] 1 corner rfl⟩
  · exact (window_shows_frames .software 33554432).2 (by decide) (by decide)
      (Graphics.inMemory_refusesWide _ _)
  · obtain ⟨w, hmake, hwidth, -⟩ :=
      (window_shows_frames library 33554431).1 (by decide)
        (Graphics.inMemory_makesSized (by decide) (by decide) (by decide))
        (Graphics.inMemory_holdsTextures (by decide) (by decide))
        (Graphics.inMemory_stretches (fun _ _ => rfl) (fun _ _ => rfl))
    exact ⟨w, hmake, hwidth⟩

end ChipEight
