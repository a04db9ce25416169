namespace ChipEight

/-!
# Grids of pixels

A grid is 64 pixels wide and 32 high. A row is a word whose most significant bit is
the leftmost pixel. Grids combine pixel by pixel, and `stamp` places a sprite so
that it wraps around all four edges.
-/

def gridWidth : Nat := 64

def gridHeight : Nat := 32

structure Grid where
  rows : Vector (BitVec 64) 32
  deriving DecidableEq

namespace Grid

def lit (g : Grid) (x : Fin 64) (y : Fin 32) : Bool := g.rows[y].getMsbD x.val

def blank : Grid := ⟨Vector.replicate 32 0#64⟩

instance : Inhabited Grid := ⟨blank⟩

instance : OrOp Grid := ⟨fun g h => ⟨Vector.zipWith (· ||| ·) g.rows h.rows⟩⟩

instance : AndOp Grid := ⟨fun g h => ⟨Vector.zipWith (· &&& ·) g.rows h.rows⟩⟩

instance : XorOp Grid := ⟨fun g h => ⟨Vector.zipWith (· ^^^ ·) g.rows h.rows⟩⟩

instance : SDiff Grid := ⟨fun g h => ⟨Vector.zipWith (fun a b => a &&& ~~~b) g.rows h.rows⟩⟩

def isBlank (g : Grid) : Bool := g.rows.all (· == 0#64)

/-- The eight pixels of a sprite row, from column `x` on, around the right edge. -/
def spriteRow (x : Nat) (b : UInt8) : BitVec 64 := (b.toBitVec ++ 0#56).rotateRight (x % 64)

/-- A sprite with its top left corner in column `x` of row `y`, around the edges. -/
def stamp (x y : Nat) (sprite : List UInt8) : Grid :=
  ⟨Vector.ofFn fun row =>
    match sprite[(row.val + (32 - y % 32)) % 32]? with
    | some b => spriteRow x b
    | none => 0#64⟩

@[ext] theorem ext {g h : Grid} (eq : ∀ x y, g.lit x y = h.lit x y) : g = h := by
  cases g with
  | mk rows =>
    cases h with
    | mk rows' =>
      congr 1
      apply Vector.ext
      intro y hy
      apply BitVec.eq_of_getMsbD_eq
      intro x hx
      exact eq ⟨x, hx⟩ ⟨y, hy⟩

@[simp] theorem lit_blank (x : Fin 64) (y : Fin 32) : blank.lit x y = false := by
  simp [lit, blank]

@[simp] theorem lit_or (g h : Grid) (x : Fin 64) (y : Fin 32) :
    (g ||| h).lit x y = (g.lit x y || h.lit x y) := by
  change (Vector.zipWith (· ||| ·) g.rows h.rows)[y].getMsbD x.val = _
  simp [lit]

@[simp] theorem lit_and (g h : Grid) (x : Fin 64) (y : Fin 32) :
    (g &&& h).lit x y = (g.lit x y && h.lit x y) := by
  change (Vector.zipWith (· &&& ·) g.rows h.rows)[y].getMsbD x.val = _
  simp [lit]

@[simp] theorem lit_xor (g h : Grid) (x : Fin 64) (y : Fin 32) :
    (g ^^^ h).lit x y = (g.lit x y ^^ h.lit x y) := by
  change (Vector.zipWith (· ^^^ ·) g.rows h.rows)[y].getMsbD x.val = _
  simp [lit]

@[simp] theorem lit_sdiff (g h : Grid) (x : Fin 64) (y : Fin 32) :
    (g \ h).lit x y = (g.lit x y && !h.lit x y) := by
  change (Vector.zipWith (fun a b => a &&& ~~~b) g.rows h.rows)[y].getMsbD x.val = _
  simp [lit]

theorem isBlank_iff (g : Grid) : g.isBlank = true ↔ ∀ x y, g.lit x y = false := by
  constructor
  · intro h x y
    have hy : g.rows[y] = 0#64 := by
      have := Vector.all_eq_true.mp h y.val y.isLt
      simpa using this
    simp only [lit, hy, BitVec.getMsbD_zero]
  · intro h
    have : g = blank := Grid.ext fun x y => by simp [h x y]
    subst this
    simp [isBlank, blank]

theorem getMsbD_spriteRow (x : Nat) (b : UInt8) (c : Nat) (hc : c < 64) :
    (spriteRow x b).getMsbD c = b.toBitVec.getMsbD ((c + (64 - x % 64)) % 64) := by
  have hx : x % 64 < 64 := Nat.mod_lt _ (by decide)
  simp only [spriteRow, BitVec.getMsbD_rotateRight, BitVec.getMsbD_append, Nat.mod_mod]
  by_cases h : c < x % 64
  · have e : (64 + c - x % 64) % 64 = (c + (64 - x % 64)) % 64 := by omega
    by_cases h8 : 8 ≤ (c + (64 - x % 64)) % 64 <;> simp [hc, h, e, h8]
  · have e : (c + (64 - x % 64)) % 64 = c - x % 64 := by omega
    by_cases h8 : 8 ≤ c - x % 64 <;> simp [hc, h, e, h8]

theorem lit_stamp (x y : Nat) (sprite : List UInt8) (c : Fin 64) (r : Fin 32) :
    (stamp x y sprite).lit c r =
      match sprite[(r.val + (32 - y % 32)) % 32]? with
      | some b => b.toBitVec.getMsbD ((c.val + (64 - x % 64)) % 64)
      | none => false := by
  simp only [lit, stamp, Fin.getElem_fin, Vector.getElem_ofFn]
  cases sprite[(r.val + (32 - y % 32)) % 32]? with
  | none => simp
  | some b => exact getMsbD_spriteRow x b c.val c.isLt

end Grid

end ChipEight
