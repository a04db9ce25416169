import ChipEight.Proofs.Machine.Outputs
import ChipEight.Proofs.Trapping.Machine

namespace ChipEight.Trapping

/-!
# States as bytes

A state, its machine and a reply written down in bytes and words. There the fields of a
word are its digits, and registers and memory are read and written without a trap.
-/

namespace Field

theorem and_0xF (k : Nat) : k &&& 0xF = k % 16 := Nat.and_two_pow_sub_one_eq_mod k 4

@[simp] theorem toNat_group (w : Word) : (group w).toNat = w.group.val := by
  have hlt := w.toNat_lt
  simp only [group, Word.group, UInt16.toNat_toUInt8, UInt16.toNat_shiftRight,
    UInt16.reduceToNat, Nat.shiftRight_eq_div_pow, Nat.reduceMod, Nat.reducePow]
  omega

@[simp] theorem toNat_x (w : Word) : (x w).toNat = w.x.val := by
  simp only [x, Word.x, UInt16.toNat_toUInt8, UInt16.toNat_and, UInt16.toNat_shiftRight,
    UInt16.reduceToNat, Nat.shiftRight_eq_div_pow, Nat.reduceMod, Nat.reducePow, and_0xF]
  omega

@[simp] theorem toNat_y (w : Word) : (y w).toNat = w.y.val := by
  simp only [y, Word.y, UInt16.toNat_toUInt8, UInt16.toNat_and, UInt16.toNat_shiftRight,
    UInt16.reduceToNat, Nat.shiftRight_eq_div_pow, Nat.reduceMod, Nat.reducePow, and_0xF]
  omega

@[simp] theorem toNat_n (w : Word) : (n w).toNat = w.n.val := by
  simp only [n, Word.n, UInt16.toNat_toUInt8, UInt16.toNat_and, UInt16.reduceToNat, and_0xF]
  omega

@[simp] theorem nn_eq (w : Word) : nn w = w.nn := by
  have hmask : w.toNat &&& 0xFF = w.toNat % 256 := Nat.and_two_pow_sub_one_eq_mod w.toNat 8
  apply UInt8.toNat_inj.mp
  simp only [nn, Word.nn, Word.low, UInt16.toNat_toUInt8, UInt16.toNat_and, UInt16.reduceToNat,
    UInt8.toNat_ofNat', hmask]

theorem toNat_nnn (w : Word) : (nnn w).toNat = w.nnn.val := by
  simp only [nnn, Word.nnn, UInt16.toNat_and, UInt16.reduceToNat]
  exact Nat.and_two_pow_sub_one_eq_mod w.toNat 12

theorem nnn_eq (w : Word) : nnn w = UInt16.ofNat w.nnn.val := by
  rw [← toNat_nnn, UInt16.ofNat_toNat]

end Field

namespace Pixels

def lit (p : Pixels) (x : Fin 64) (y : Fin 32) : Bool := (p.get y).get x

def ofGrid (g : Grid) : Pixels := Vector.ofFn fun y => Vector.ofFn fun x => g.lit x y

theorem lit_mk (p : Pixels) {x y : Nat} (hx : x < 64) (hy : y < 32) :
    p.lit ⟨x, hx⟩ ⟨y, hy⟩ = p[y][x] :=
  rfl

theorem ext_lit {p q : Pixels} (h : ∀ x y, p.lit x y = q.lit x y) : p = q := by
  apply Vector.ext
  intro y hy
  apply Vector.ext
  intro x hx
  exact h ⟨x, hx⟩ ⟨y, hy⟩

@[simp] theorem lit_ofGrid (g : Grid) (x : Fin 64) (y : Fin 32) :
    (ofGrid g).lit x y = g.lit x y := by
  obtain ⟨x, hx⟩ := x
  obtain ⟨y, hy⟩ := y
  simp [lit_mk, ofGrid]

@[simp] theorem lit_unlit (x : Fin 64) (y : Fin 32) : unlit.lit x y = false := by
  obtain ⟨x, hx⟩ := x
  obtain ⟨y, hy⟩ := y
  simp [lit_mk, unlit]

theorem ofGrid_blank : ofGrid Grid.blank = unlit := by
  apply ext_lit
  simp

end Pixels

namespace State

/-- A depth fits into a byte. -/
theorem toNat_depth {depth : Nat} (h : depth ≤ 16) : (UInt8.ofNat depth).toNat = depth :=
  UInt8.toNat_ofNat_of_lt' (Nat.lt_of_le_of_lt h (by decide))

theorem shiftLeft_or_eq_ofBytes (high low : UInt8) :
    high.toUInt16 <<< 8 ||| low.toUInt16 = Word.ofBytes high low := by
  have hhigh := high.toNat_lt
  have hor := Nat.shiftLeft_add_eq_or_of_lt (show low.toNat < 2 ^ 8 from low.toNat_lt) high.toNat
  have hmod : high.toNat <<< 8 % 65536 = high.toNat <<< 8 := by
    rw [Nat.shiftLeft_eq]
    omega
  apply UInt16.toNat_inj.mp
  simp only [UInt16.toNat_or, UInt16.toNat_shiftLeft, UInt8.toNat_toUInt16, UInt16.reduceToNat,
    Word.toNat_ofBytes, Nat.reduceMod, Nat.reducePow, hmod]
  rw [← hor, Nat.shiftLeft_eq]
  omega

def ofState (s : ChipEight.State) : State where
  registers := s.registers
  index := s.index
  counter := s.counter
  depth := UInt8.ofNat s.calls.depth
  slots := s.calls.slots
  delay := s.delay
  memory := s.memory.bytes
  visible := .ofGrid s.screen.visible
  fading := .ofGrid s.screen.fading
  stale := s.screen.stale

section

variable (s : ChipEight.State)

theorem read_ofState (a : UInt16) : (ofState s).read a = .ok (s.memory.read a) :=
  lookup_of_lt _ (Nat.mod_lt _ (by decide))

theorem write_ofState (a : UInt16) (b : UInt8) :
    (ofState s).write a b = .ok (ofState { s with memory := s.memory.write a b }) := by
  have hlt : a.toNat % 4096 < 4096 := Nat.mod_lt _ (by decide)
  have hupdate : update s.memory.bytes (a.toNat % 4096) b = .ok (s.memory.write a b).bytes :=
    update_of_lt s.memory.bytes hlt b
  simp only [write, ofState, hupdate, ok_bind, pure_eq_ok]

theorem register_ofState {x : UInt8} {k : Reg} (hx : x.toNat = k.val) :
    (ofState s).register x = .ok (s.reg k) := by
  rw [register, hx]
  exact lookup_of_lt s.registers k.isLt

theorem setRegister_ofState {x : UInt8} {k : Reg} (hx : x.toNat = k.val) (b : UInt8) :
    (ofState s).setRegister x b = .ok (ofState (s.setReg k b)) := by
  have hupdate : update s.registers k.val b = .ok (s.setReg k b).registers :=
    update_of_lt s.registers k.isLt b
  rw [setRegister, hx]
  simp only [ofState, hupdate, ok_bind, pure_eq_ok]
  rfl

theorem fetch_ofState : (ofState s).fetch = .ok s.fetch := by
  have hhigh : (ofState s).read (ofState s).counter = .ok (s.memory.read s.counter) :=
    read_ofState s s.counter
  have hlow : (ofState s).read ((ofState s).counter + 1) = .ok (s.memory.read (s.counter + 1)) :=
    read_ofState s (s.counter + 1)
  simp only [fetch, hhigh, hlow, ok_bind, pure_eq_ok, shiftLeft_or_eq_ofBytes]
  rfl

end

end State

def Effect.ofEffect (e : ChipEight.Effect) : Effect := ⟨.ofState e.state, e.random, e.beep⟩

def Machine.ofMachine (m : ChipEight.Machine) : Machine := ⟨.ofState m.state, m.keys, m.random⟩

/-- A reply without its records. -/
def Reply.ofReply (r : ChipEight.Reply) : Reply :=
  ⟨.ofMachine r.machine, r.beeps, r.frames.map .ofGrid, r.result⟩

end ChipEight.Trapping
