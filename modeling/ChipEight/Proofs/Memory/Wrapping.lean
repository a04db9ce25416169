import ChipEight.State

namespace ChipEight

/-!
# Addresses of any size

The bytes and words of memory, numbered by all natural numbers modulo the size of
memory. Sixteen-bit addresses, also after an addition that wraps around, are a
special case.
-/

namespace Memory

def byteAt (m : Memory) (a : Nat) : UInt8 := m.get ⟨a % 4096, Nat.mod_lt _ (by decide)⟩

/-- The word whose high byte is at an address and whose low byte follows. -/
def wordAt (m : Memory) (a : Nat) : Word :=
  UInt16.ofNat (256 * (m.byteAt a).toNat + (m.byteAt (a + 1)).toNat)

theorem byteAt_eq_get {m : Memory} {a : Nat} {c : Fin 4096} (h : a % 4096 = c.val) :
    m.byteAt a = m.get c :=
  congrArg m.get (Fin.ext h)

theorem read_eq_byteAt (m : Memory) (a : UInt16) : m.read a = m.byteAt a.toNat := rfl

theorem read_add_eq_byteAt (m : Memory) (a : UInt16) (k : Nat) :
    m.read (a + UInt16.ofNat k) = m.byteAt (a.toNat + k) := by
  have hc : cell (a + UInt16.ofNat k) = ⟨(a.toNat + k) % 4096, Nat.mod_lt _ (by decide)⟩ :=
    Fin.ext (val_cell_add a k)
  exact congrArg m.get hc

end Memory

namespace State

theorem fetch_eq_wordAt (s : State) : s.fetch = s.memory.wordAt s.counter.toNat := by
  have hlow : s.memory.read (s.counter + 1) = s.memory.byteAt (s.counter.toNat + 1) :=
    s.memory.read_add_eq_byteAt s.counter 1
  simp only [fetch, Word.ofBytes, Memory.wordAt, hlow, Memory.read_eq_byteAt]

end State

end ChipEight
