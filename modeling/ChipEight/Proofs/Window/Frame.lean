import ChipEight.Window

namespace ChipEight

/-!
# A grid in a texture

The bytes of a grid are cut into rows and written into a texture whose rows may be longer. Cutting
gives the rows that the bytes were put together from, and writing a row touches none of the others,
so every texel ends up as the pixel of the grid that stands there, whatever the texture held.
-/

/-! ## Rows of equal length -/

section EqualLength

variable {α β : Type} {size : Nat}

theorem chunks_flatten (hsize : 0 < size) {rows : List (List α)}
    (hrows : ∀ row ∈ rows, row.length = size) : chunks size rows.flatten = rows := by
  induction rows with
  | nil => rw [List.flatten_nil, chunks]
  | cons row rest ih =>
      obtain ⟨hrow, hrest⟩ := List.forall_mem_cons.mp hrows
      cases row with
      | nil => exact absurd hrow (Nat.ne_of_lt hsize)
      | cons a tail =>
          have htail : tail.length = size - 1 := by
            rw [List.length_cons] at hrow
            omega
          rw [List.flatten_cons, List.cons_append, chunks, List.take_left' htail,
            List.drop_left' htail, ih hrest]

theorem getElem?_flatMap_of_length {f : α → List β} (hf : ∀ a, (f a).length = size)
    (list : List α) (i : Nat) {j : Nat} (hj : j < size) :
    (list.flatMap f)[size * i + j]? = list[i]?.bind fun a => (f a)[j]? := by
  induction list generalizing i with
  | nil => rfl
  | cons a rest ih =>
      cases i with
      | zero =>
          rw [List.flatMap_cons, Nat.mul_zero, Nat.zero_add,
            List.getElem?_append_left (by rwa [hf])]
          rfl
      | succ i =>
          have hplace : size * (i + 1) + j = size + (size * i + j) := by
            rw [Nat.mul_succ]
            omega
          rw [List.flatMap_cons, hplace, List.getElem?_append_right (by rw [hf]; omega), hf,
            Nat.add_sub_cancel_left, ih, List.getElem?_cons_succ]

end EqualLength

namespace Grid

variable (g : Grid)

/-- The bytes of one row of pixels. -/
def rowBytes (row : List Bool) : List UInt8 :=
  row.flatMap fun lit => List.replicate 3 (if lit then 0xFF else 0x00)

theorem length_rowBytes (row : List Bool) : (rowBytes row).length = 3 * row.length := by
  induction row with
  | nil => rfl
  | cons lit rest ih =>
      rw [rowBytes, List.flatMap_cons, List.length_append, List.length_replicate, List.length_cons]
      change 3 + (rowBytes rest).length = _
      omega

theorem length_of_mem_pixelRows {row : List Bool} (h : row ∈ g.pixelRows) : row.length = 64 := by
  obtain ⟨y, -, rfl⟩ := List.mem_map.mp h
  rw [List.length_map, List.length_finRange]

/-- Cutting the bytes of a grid undoes that its rows were put together. -/
theorem chunks_toBytes : chunks (3 * gridWidth) g.toBytes = g.pixelRows.map rowBytes := by
  have htogether : g.toBytes = (g.pixelRows.map rowBytes).flatten := by
    rw [toBytes, List.flatMap_assoc, ← List.flatMap_def]
    rfl
  rw [htogether]
  apply chunks_flatten (by decide)
  intro row hrow
  obtain ⟨pixels, hpixels, rfl⟩ := List.mem_map.mp hrow
  rw [length_rowBytes, g.length_of_mem_pixelRows hpixels, gridWidth]

theorem length_chunks_toBytes : (chunks (3 * gridWidth) g.toBytes).length = 32 := by
  rw [chunks_toBytes, List.length_map, pixelRows, List.length_map, List.length_finRange]

theorem length_of_mem_chunks_toBytes {row : List UInt8}
    (h : row ∈ chunks (3 * gridWidth) g.toBytes) : row.length = 192 := by
  rw [chunks_toBytes] at h
  obtain ⟨pixels, hpixels, rfl⟩ := List.mem_map.mp h
  rw [length_rowBytes, g.length_of_mem_pixelRows hpixels]

/-- A row that the bytes of a grid are cut into has three bytes for each pixel. -/
theorem exists_row (y : Fin 32) :
    ∃ row, (chunks (3 * gridWidth) g.toBytes)[y.val]? = some row ∧
      ∀ (x : Fin 64), ∀ c < 3, row[3 * x.val + c]? = some (if g.lit x y then 0xFF else 0x00) := by
  refine ⟨rowBytes ((List.finRange 64).map fun x => g.lit x y), ?_, ?_⟩
  · have hfound : g.pixelRows[y.val]? = some ((List.finRange 64).map fun x => g.lit x y) := by
      simp [pixelRows]
    rw [chunks_toBytes, List.getElem?_map, hfound, Option.map_some]
  · intro x c hc
    have hpixel : ((List.finRange 64).map fun x => g.lit x y)[x.val]? = some (g.lit x y) := by
      simp
    rw [rowBytes, getElem?_flatMap_of_length (fun _ => List.length_replicate) _ _ hc, hpixel,
      Option.bind_some, List.getElem?_replicate, if_pos hc]

end Grid

/-! ## Writing rows -/

section Write

variable {buffer : Array UInt8}

theorem size_writeBytes (first : Nat) (bytes : List UInt8) :
    (writeBytes buffer first bytes).size = buffer.size := by
  induction bytes generalizing buffer first with
  | nil => rfl
  | cons b rest ih => rw [writeBytes, ih, Array.size_setIfInBounds]

/-- Bytes that fit are found where they were written, and all others are as before. -/
theorem getElem?_writeBytes {first : Nat} {bytes : List UInt8}
    (hfits : first + bytes.length ≤ buffer.size) (i : Nat) :
    (writeBytes buffer first bytes)[i]? =
      if first ≤ i ∧ i < first + bytes.length then bytes[i - first]? else buffer[i]? := by
  induction bytes generalizing buffer first with
  | nil => exact (if_neg fun h => Nat.not_lt.mpr h.1 h.2).symm
  | cons b rest ih =>
      rw [List.length_cons] at hfits ⊢
      rw [writeBytes, ih (by rw [Array.size_setIfInBounds]; omega), Array.getElem?_setIfInBounds]
      rcases Nat.lt_trichotomy i first with hlt | rfl | hgt
      · rw [if_neg (by omega), if_neg (by omega), if_neg (by omega)]
      · rw [if_neg (by omega), if_pos rfl, if_pos (by omega), if_pos (by omega), Nat.sub_self]
        rfl
      · have hplace : i - first = i - (first + 1) + 1 := by omega
        have hinside : first + 1 ≤ i ∧ i < first + 1 + rest.length ↔
            first ≤ i ∧ i < first + (rest.length + 1) := by omega
        rw [if_neg (Nat.ne_of_lt hgt), hplace, List.getElem?_cons_succ]
        simp only [hinside]

section Room

variable {pitch y : Nat} {row : List UInt8} {rest : List (List UInt8)}
  (hfits : (y + (row :: rest).length) * pitch ≤ buffer.size)
include hfits

theorem row_fits (hrow : row.length ≤ pitch) : y * pitch + row.length ≤ buffer.size :=
  calc y * pitch + row.length ≤ y * pitch + pitch := Nat.add_le_add_left hrow _
    _ = (y + 1) * pitch := (Nat.succ_mul y pitch).symm
    _ ≤ (y + (row :: rest).length) * pitch :=
        Nat.mul_le_mul_right pitch (Nat.add_le_add_left (Nat.succ_pos rest.length) y)
    _ ≤ buffer.size := hfits

theorem rest_fits :
    (y + 1 + rest.length) * pitch ≤ (writeBytes buffer (y * pitch) row).size := by
  rw [size_writeBytes, Nat.add_right_comm]
  exact hfits

end Room

variable {pitch : Nat} {rows : List (List UInt8)}

/-- What stands before the rows is not touched. -/
theorem getElem?_writeRows_of_lt (hrows : ∀ row ∈ rows, row.length ≤ pitch) {y : Nat}
    (hfits : (y + rows.length) * pitch ≤ buffer.size) {i : Nat} (hi : i < y * pitch) :
    (writeRows pitch buffer y rows)[i]? = buffer[i]? := by
  induction rows generalizing buffer y with
  | nil => rfl
  | cons row rest ih =>
      obtain ⟨hrow, hrest⟩ := List.forall_mem_cons.mp hrows
      have hnext : i < (y + 1) * pitch :=
        Nat.lt_of_lt_of_le hi (Nat.mul_le_mul_right pitch (Nat.le_succ y))
      rw [writeRows, ih hrest (rest_fits hfits) hnext, getElem?_writeBytes (row_fits hfits hrow),
        if_neg (by omega)]

/-- Every row is found where it was written. -/
theorem getElem?_writeRows (hrows : ∀ row ∈ rows, row.length ≤ pitch) {y : Nat}
    (hfits : (y + rows.length) * pitch ≤ buffer.size) {k : Nat} {row : List UInt8}
    (hrow : rows[k]? = some row) {j : Nat} (hj : j < row.length) :
    (writeRows pitch buffer y rows)[(y + k) * pitch + j]? = row[j]? := by
  induction rows generalizing buffer y k with
  | nil => simp at hrow
  | cons first rest ih =>
      obtain ⟨hfirst, hrest⟩ := List.forall_mem_cons.mp hrows
      rw [writeRows]
      cases k with
      | zero =>
          obtain rfl := Option.some.inj hrow
          -- the later rows begin behind this one
          have hbefore : y * pitch + j < (y + 1) * pitch := by
            rw [Nat.succ_mul]
            omega
          rw [Nat.add_zero y, getElem?_writeRows_of_lt hrest (rest_fits hfits) hbefore,
            getElem?_writeBytes (row_fits hfits hfirst), if_pos (by omega), Nat.add_sub_cancel_left]
      | succ k =>
          have hplace : y + (k + 1) = y + 1 + k := by omega
          rw [hplace]
          exact ih hrest (rest_fits hfits) hrow

end Write

/-! ## Texels -/

theorem Texture.texel_of_grey {t : Texture} {x y : Nat} {b : UInt8}
    (h : ∀ c < 3, t.bytes.getD (y * t.pitch + 3 * x + c) 0 = b) : t.texel x y = ⟨b, b, b⟩ := by
  have hred := h 0 (by decide)
  have hgreen := h 1 (by decide)
  have hblue := h 2 (by decide)
  rw [Nat.add_zero] at hred
  rw [texel, hred, hgreen, hblue]

section Fill

-- The rows are a variable here: comparing a texture that was filled from a grid with the one before
-- would write all the bytes.
variable (t : Texture) (rows : List (List UInt8))

@[simp] theorem Texture.width_fill : (t.fill rows).width = t.width := rfl

@[simp] theorem Texture.height_fill : (t.fill rows).height = t.height := rfl

@[simp] theorem Texture.pitch_fill : (t.fill rows).pitch = t.pitch := rfl

end Fill

section Texels

variable (g : Grid) {t : Texture} (hpitch : 192 ≤ t.pitch) (hbytes : t.pitch * 32 ≤ t.bytes.size)
  (x : Fin 64) (y : Fin 32)
include hpitch hbytes

theorem getD_bytes_fill {c : Nat} (hc : c < 3) :
    (t.fill (chunks (3 * gridWidth) g.toBytes)).bytes.getD (y.val * t.pitch + 3 * x.val + c) 0 =
      if g.lit x y then 0xFF else 0x00 := by
  obtain ⟨row, hrow, hpixel⟩ := g.exists_row y
  have hlength := g.length_of_mem_chunks_toBytes (List.mem_of_getElem? hrow)
  have hrows : ∀ row ∈ chunks (3 * gridWidth) g.toBytes, row.length ≤ t.pitch := by
    intro row hmem
    rw [g.length_of_mem_chunks_toBytes hmem]
    exact hpitch
  have hfits : (0 + (chunks (3 * gridWidth) g.toBytes).length) * t.pitch ≤ t.bytes.size := by
    rw [g.length_chunks_toBytes, Nat.zero_add, Nat.mul_comm]
    exact hbytes
  have hinside : 3 * x.val + c < row.length := by omega
  have hwritten := getElem?_writeRows hrows hfits hrow hinside
  rw [Nat.zero_add, ← Nat.add_assoc, hpixel x c hc] at hwritten
  rw [Array.getD_eq_getD_getElem?, Texture.fill, hwritten, Option.getD_some]

/-- A texture with enough room shows the grid that is written into it. -/
theorem texel_fill :
    (t.fill (chunks (3 * gridWidth) g.toBytes)).texel x.val y.val =
      if g.lit x y then .white else .black := by
  have hgrey := Texture.texel_of_grey fun c hc => by
    rw [Texture.pitch_fill]
    exact getD_bytes_fill g hpitch hbytes x y hc
  rw [hgrey]
  cases g.lit x y <;> rfl

end Texels

end ChipEight
