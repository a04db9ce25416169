import ChipEight.Graphics.Software

namespace ChipEight

/-!
# The laws of the library without a screen

It refuses and makes windows as the laws want, and drawing on it never fails. Whether it stretches
a texture by the nearest texels is up to its rule: `software` does so at the whole scales to 28.
-/

namespace Graphics

/-- Stretched by a whole number, every texel is as many pixels wide. -/
theorem nearest_mul {texels scale : Nat} (htexels : 0 < texels) (p : Nat) :
    nearest texels (texels * scale) p = p / scale := by
  have hcancel : 2 * (texels * scale) = texels * (2 * scale) := Nat.mul_left_comm 2 texels scale
  rw [nearest, hcancel, Nat.mul_comm, Nat.mul_div_mul_left _ _ htexels, ← Nat.div_div_eq_div_mul]
  congr 1
  omega

/-- The steps keep up with the pixels as long as what is lost of them is less than half a step. -/
theorem stepped_mul {texels scale p : Nat} (htexels : 0 < texels) (hscale : 0 < scale)
    (hp : p < texels * scale) (hlost : (texels - 1) * (65536 % scale) ≤ 65536 / scale / 2) :
    stepped texels (texels * scale) p = p / scale := by
  have hstep : 65536 * texels / (texels * scale) = 65536 / scale := by
    rw [Nat.mul_comm 65536, Nat.mul_div_mul_left _ _ htexels]
  rw [stepped, hstep]
  generalize hs : 65536 / scale = step at hlost ⊢
  generalize hr : 65536 % scale = lost at hlost
  have hwhole : scale * step + lost = 65536 := by
    rw [← hs, ← hr]
    exact Nat.div_add_mod 65536 scale
  have hsplit := Nat.div_add_mod p scale
  have hrest := Nat.mod_lt p hscale
  have hq : p / scale < texels := Nat.div_lt_of_lt_mul (by rwa [Nat.mul_comm])
  generalize p / scale = q at hsplit hq ⊢
  generalize p % scale = r at hsplit hrest
  -- the pixel is `q` texels and `r` pixels from the left, so `q * lost` is lost up to there
  have hqlost : q * lost ≤ step / 2 :=
    Nat.le_trans (Nat.mul_le_mul_right lost (by omega)) hlost
  have hplace : step * p + q * lost = 65536 * q + step * r := by
    rw [← hsplit, ← hwhole, Nat.mul_add, Nat.add_mul, ← Nat.mul_assoc, Nat.mul_comm step scale,
      Nat.mul_comm q lost]
    omega
  have hinside : step * r + step ≤ scale * step := by
    rw [← Nat.mul_succ, Nat.mul_comm]
    exact Nat.mul_le_mul_right step hrest
  have hless : step / 2 + step * r < 65536 := by
    rcases Nat.eq_zero_or_pos step with rfl | hpos
    · rw [Nat.zero_mul]
      decide
    · omega
  apply Nat.div_eq_of_lt_le
  · omega
  · rw [Nat.succ_mul]
    omega

section InMemory

variable (limit : Nat) (rule : Nat → Nat → Nat → Nat)

theorem inMemory_refusesWide : (inMemory limit rule).RefusesWide :=
  fun _ _ _ h => if_pos h

theorem inMemory_draws : (inMemory limit rule).Draws where
  creates := fun _ _ _ => ⟨_, rfl⟩
  locks := fun t => ⟨t, rfl⟩
  copies := fun _ _ => ⟨_, rfl⟩

variable {limit rule}

theorem inMemory_make {width height : UInt32} (hwidth : width.toNat < widthLimit)
    (hheight : height.toNat < widthLimit) (hfits : width.toNat ≤ limit ∧ height.toNat ≤ limit)
    (title : String) :
    (inMemory limit rule).make title width height =
      .ok ⟨width.toNat, height.toNat, none, none⟩ := by
  have hlimit : ¬(limit < width.toNat ∨ limit < height.toNat) := by omega
  exact (if_neg (Nat.not_le.mpr hwidth)).trans
    ((if_neg (Nat.not_le.mpr hheight)).trans (if_neg hlimit))

theorem inMemory_makesSized {width height : Nat} (hwidth : width < widthLimit)
    (hheight : height < widthLimit) (hfits : width ≤ limit ∧ height ≤ limit) :
    (inMemory limit rule).MakesSized width height := by
  intro title
  have hsize : ∀ n < widthLimit, (UInt32.ofNat n).toNat = n := fun n h =>
    UInt32.toNat_ofNat_of_lt' (Nat.lt_trans h (by decide))
  refine ⟨⟨(UInt32.ofNat width).toNat, (UInt32.ofNat height).toNat, none, none⟩, ?_,
    hsize width hwidth, hsize height hheight⟩
  apply inMemory_make
  · rwa [hsize width hwidth]
  · rwa [hsize height hheight]
  · rwa [hsize width hwidth, hsize height hheight]

theorem inMemory_holdsTextures {width height : Nat} (hwidth : width < 4294967296)
    (hheight : height < 4294967296) : (inMemory limit rule).HoldsTextures width height := by
  intro canvas
  refine ⟨_, rfl, _, rfl, UInt32.toNat_ofNat_of_lt' hwidth, UInt32.toNat_ofNat_of_lt' hheight,
    ?_, ?_⟩
  · change 3 * width ≤ (3 * (UInt32.ofNat width).toNat + 3) / 4 * 4
    rw [UInt32.toNat_ofNat_of_lt' hwidth]
    omega
  · simp [UInt32.toNat_ofNat_of_lt' hheight]

/-- A rule that finds the nearest texels stretches textures as it should. -/
theorem inMemory_stretches {columns rows width height : Nat}
    (hcolumn : ∀ px < width, rule columns width px = nearest columns width px)
    (hrow : ∀ py < height, rule rows height py = nearest rows height py) :
    (inMemory limit rule).Stretches columns rows width height := by
  rintro ⟨width', height', copied, presented⟩ t rfl rfl rfl rfl
  refine ⟨_, rfl, rfl, rfl, ?_⟩
  intro px hpx py hpy
  rw [← hcolumn px hpx, ← hrow py hpy]
  rfl

end InMemory

theorem software_limitsSides : software.LimitsSides where
  refuses := fun _ _ _ hwidth hheight hlarge =>
    (if_neg (Nat.not_le.mpr hwidth)).trans
      ((if_neg (Nat.not_le.mpr hheight)).trans (if_pos hlarge))
  makes := fun title _ _ hwidth hheight =>
    ⟨_, inMemory_make (Nat.lt_of_le_of_lt hwidth (by decide))
      (Nat.lt_of_le_of_lt hheight (by decide)) ⟨hwidth, hheight⟩ title⟩

theorem software_stretches {scale : Nat} (hpos : 0 < scale) (hscale : scale ≤ 28) :
    software.Stretches 64 32 (64 * scale) (32 * scale) := by
  have hkeepsUp : ∀ s < 29, 0 < s →
      63 * (65536 % s) ≤ 65536 / s / 2 ∧ 31 * (65536 % s) ≤ 65536 / s / 2 := by decide
  obtain ⟨hcolumns, hrows⟩ := hkeepsUp scale (Nat.lt_succ_of_le hscale) hpos
  apply inMemory_stretches
  · intro px hpx
    rw [stepped_mul (by decide) hpos hpx hcolumns, nearest_mul (by decide)]
  · intro py hpy
    rw [stepped_mul (by decide) hpos hpy hrows, nearest_mul (by decide)]

end Graphics

end ChipEight
