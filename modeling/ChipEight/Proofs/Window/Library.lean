import ChipEight.Window

namespace ChipEight

/-!
# A window and its library

The laws of a graphics library speak of sides, and a window is asked for by its scale. They meet at
the scales whose sides are numbers of 32 bits; at larger ones the products wrap around. Showing a
grid takes three steps that can fail, and is done if none of them does.
-/

namespace Window

variable {G : Graphics} {scale : Nat}

theorem toNat_sides (hscale : scale < 67108864) :
    (.ofNat gridWidth * .ofNat scale : UInt32).toNat = 64 * scale ∧
      (.ofNat gridHeight * .ofNat scale : UInt32).toNat = 32 * scale := by
  simp only [gridWidth, gridHeight, ← UInt32.ofNat_mul, UInt32.toNat_ofNat']
  omega

theorem openOn_of_make {canvas : G.Canvas}
    (h : G.make title (.ofNat (64 * scale)) (.ofNat (32 * scale)) = .ok canvas) :
    openOn G scale = .ok ⟨canvas⟩ := by
  rw [openOn, ← UInt32.ofNat_mul, ← UInt32.ofNat_mul]
  simp only [gridWidth, gridHeight, h]

theorem openOn_of_refusesWide (hscale : scale < 67108864) (hwide : 2147483648 ≤ 64 * scale)
    (hrefuses : G.RefusesWide) : openOn G scale = .error (.tooWide (64 * scale)) := by
  obtain ⟨hwidth, -⟩ := toNat_sides hscale
  have hmake := hrefuses title (.ofNat gridWidth * .ofNat scale) (.ofNat gridHeight * .ofNat scale)
  rw [hwidth] at hmake
  rw [openOn, hmake hwide]

theorem openOn_of_tooLarge (hscale : scale < 67108864) (hwide : 64 * scale < 2147483648)
    (hlarge : 16384 < 64 * scale) (hsides : G.LimitsSides) : openOn G scale = .error .tooLarge := by
  obtain ⟨hwidth, hheight⟩ := toNat_sides hscale
  have hmake := hsides.refuses title (.ofNat gridWidth * .ofNat scale)
    (.ofNat gridHeight * .ofNat scale)
  rw [hwidth, hheight] at hmake
  have hhigh : 32 * scale < 2147483648 := by omega
  rw [openOn, hmake hwide hhigh (Or.inl hlarge)]

theorem exists_openOn (hscale : scale < 67108864) (hfits : 64 * scale ≤ 16384)
    (hsides : G.LimitsSides) : ∃ w, openOn G scale = .ok w := by
  obtain ⟨hwidth, hheight⟩ := toNat_sides hscale
  have hmake := hsides.makes title (.ofNat gridWidth * .ofNat scale)
    (.ofNat gridHeight * .ofNat scale)
  rw [hwidth, hheight] at hmake
  have hhigh : 32 * scale ≤ 16384 := by omega
  obtain ⟨canvas, hcanvas⟩ := hmake hfits hhigh
  exact ⟨⟨canvas⟩, by rw [openOn, hcanvas]⟩

section Present

variable {w : Window G} {g : Grid}

theorem present_of_steps {t t' : Texture} {canvas : G.Canvas}
    (hcreate : G.createTexture w.canvas (.ofNat gridWidth) (.ofNat gridHeight) = .ok t)
    (hlock : G.lock t = .ok t')
    (hcopy : G.copy w.canvas (t'.fill (chunks (3 * gridWidth) g.toBytes)) = .ok canvas) :
    w.present g = (⟨G.present canvas⟩, none) := by
  have hrender : w.render g = .ok ⟨G.present canvas⟩ := by
    simp only [render, hcreate, hlock, hcopy, bind, Except.bind, pure, Except.pure]
  rw [present, hrender]

theorem exists_present (hdraws : G.Draws) (w : Window G) (g : Grid) :
    ∃ w', w.present g = (w', none) := by
  obtain ⟨t, hcreate⟩ := hdraws.creates w.canvas (.ofNat gridWidth) (.ofNat gridHeight)
  obtain ⟨t', hlock⟩ := hdraws.locks t
  obtain ⟨canvas, hcopy⟩ := hdraws.copies w.canvas (t'.fill (chunks (3 * gridWidth) g.toBytes))
  exact ⟨_, present_of_steps hcreate hlock hcopy⟩

end Present

end Window

end ChipEight
