import ChipEight.Font

namespace ChipEight

/-!
# Memory

4096 bytes. Addresses have sixteen bits and wrap around the end of memory, so two
addresses name the same cell exactly when they agree modulo 4096.
-/

def memorySize : Nat := 4096

def programStart : Nat := 0x200

def programRoom : Nat := memorySize - programStart

structure Memory where
  bytes : Vector UInt8 4096
  deriving DecidableEq

namespace Memory

/-- The cell that an address names. -/
def cell (a : UInt16) : Fin 4096 := ⟨a.toNat % 4096, Nat.mod_lt _ (by decide)⟩

def get (m : Memory) (c : Fin 4096) : UInt8 := m.bytes[c]

def set (m : Memory) (c : Fin 4096) (b : UInt8) : Memory := ⟨m.bytes.set c.val b c.isLt⟩

def read (m : Memory) (a : UInt16) : UInt8 := m.get (cell a)

def write (m : Memory) (a : UInt16) (b : UInt8) : Memory := m.set (cell a) b

def readList (m : Memory) (a : UInt16) : Nat → List UInt8
  | 0 => []
  | count + 1 => m.read a :: m.readList (a + 1) count

def writeList (m : Memory) (a : UInt16) : List UInt8 → Memory
  | [] => m
  | b :: rest => (m.write a b).writeList (a + 1) rest

def blank : Memory := ⟨Vector.replicate 4096 0⟩

/-- The sprites of the digits at the bottom, zero elsewhere. -/
def powerOn : Memory := blank.writeList (UInt16.ofNat Font.base) Font.sheet

def withProgram (program : List UInt8) : Memory :=
  powerOn.writeList (UInt16.ofNat programStart) program

@[ext] theorem ext {m m' : Memory} (h : ∀ c, m.get c = m'.get c) : m = m' := by
  cases m with
  | mk bytes =>
    cases m' with
    | mk bytes' =>
      congr 1
      apply Vector.ext
      intro i hi
      exact h ⟨i, hi⟩

theorem get_set (m : Memory) (c d : Fin 4096) (b : UInt8) :
    (m.set c b).get d = if c = d then b else m.get d := by
  simp only [get, set, Fin.getElem_fin, Vector.getElem_set, Fin.ext_iff]

@[simp] theorem get_set_self (m : Memory) (c : Fin 4096) (b : UInt8) :
    (m.set c b).get c = b := by
  simp [get_set]

theorem get_set_of_ne (m : Memory) {c d : Fin 4096} (h : c ≠ d) (b : UInt8) :
    (m.set c b).get d = m.get d := by
  simp [get_set, h]

@[simp] theorem get_blank (c : Fin 4096) : blank.get c = 0 := by
  simp [blank, get]

@[simp] theorem writeList_nil (m : Memory) (a : UInt16) : m.writeList a [] = m := rfl

theorem val_cell (a : UInt16) : (cell a).val = a.toNat % 4096 := rfl

theorem val_cell_add (a : UInt16) (k : Nat) :
    (cell (a + UInt16.ofNat k)).val = (a.toNat + k) % 4096 := by
  simp only [val_cell, UInt16.toNat_add, UInt16.toNat_ofNat']
  omega

theorem cell_eq_iff (a a' : UInt16) : cell a = cell a' ↔ a.toNat % 4096 = a'.toNat % 4096 :=
  Fin.ext_iff

theorem add_succ (a : UInt16) (k : Nat) :
    a + 1 + UInt16.ofNat k = a + UInt16.ofNat (k + 1) := by
  apply UInt16.toNat_inj.mp
  simp only [UInt16.toNat_add, UInt16.toNat_ofNat', UInt16.toNat_one]
  omega

theorem get_writeList_of_forall_ne {m : Memory} {a : UInt16} {bytes : List UInt8} {c : Fin 4096}
    (h : ∀ k < bytes.length, cell (a + UInt16.ofNat k) ≠ c) :
    (m.writeList a bytes).get c = m.get c := by
  induction bytes generalizing m a with
  | nil => rfl
  | cons b rest ih =>
    rw [writeList, ih]
    · exact get_set_of_ne m (by simpa using h 0 (by simp)) b
    · intro k hk
      rw [add_succ]
      exact h (k + 1) (by simpa using hk)

/-- Inside its window, which must not overlap itself, a list is found again. -/
theorem get_writeList_add {m : Memory} {a : UInt16} {bytes : List UInt8} {k : Nat}
    (hk : k < bytes.length) (fits : bytes.length ≤ 4096) :
    (m.writeList a bytes).get (cell (a + UInt16.ofNat k)) = bytes[k] := by
  induction bytes generalizing m a k with
  | nil => simp at hk
  | cons b rest ih =>
    rw [writeList]
    cases k with
    | zero =>
      rw [get_writeList_of_forall_ne]
      · simp [write]
      · intro j hj
        have : j + 1 < 4096 := by simp only [List.length_cons] at fits; omega
        rw [add_succ, ne_eq, Fin.ext_iff, val_cell_add, val_cell_add]
        omega
    | succ k =>
      rw [← add_succ]
      exact ih (by simpa using hk) (by simp only [List.length_cons] at fits; omega)

@[simp] theorem length_readList (m : Memory) (a : UInt16) (count : Nat) :
    (m.readList a count).length = count := by
  induction count generalizing a with
  | zero => rfl
  | succ count ih => simp [readList, ih]

@[simp] theorem getElem_readList (m : Memory) (a : UInt16) (count k : Nat)
    (hk : k < (m.readList a count).length) :
    (m.readList a count)[k] = m.read (a + UInt16.ofNat k) := by
  induction count generalizing a k with
  | zero => simp at hk
  | succ count ih =>
    cases k with
    | zero => simp [readList]
    | succ k => simp only [readList, List.getElem_cons_succ, ih, add_succ]

theorem get_powerOn (c : Fin 4096) : powerOn.get c = Font.sheet[c.val]?.getD 0 := by
  by_cases h : c.val < Font.sheet.length
  · have e : c = cell (UInt16.ofNat Font.base + UInt16.ofNat c.val) := by
      rw [Fin.ext_iff, val_cell_add]
      have := c.isLt
      simp [Font.base]
      omega
    rw [List.getElem?_eq_getElem h, powerOn]
    conv => lhs; rw [e]
    exact get_writeList_add h (by decide)
  · rw [List.getElem?_eq_none (by omega), powerOn, get_writeList_of_forall_ne]
    · simp
    · intro k hk eq
      rw [Fin.ext_iff, val_cell_add] at eq
      simp [Font.base] at eq
      have : Font.sheet.length = 80 := rfl
      omega

theorem get_withProgram_of_mem {program : List UInt8} (fits : program.length ≤ programRoom)
    {k : Nat} (hk : k < program.length) :
    (withProgram program).get (cell (UInt16.ofNat programStart + UInt16.ofNat k)) = program[k] :=
  get_writeList_add hk (Nat.le_trans fits (by decide))

theorem get_withProgram_of_not_mem {program : List UInt8} (fits : program.length ≤ programRoom)
    {c : Fin 4096} (h : c.val < programStart ∨ programStart + program.length ≤ c.val) :
    (withProgram program).get c = powerOn.get c := by
  refine get_writeList_of_forall_ne fun k hk eq => ?_
  rw [Fin.ext_iff, val_cell_add] at eq
  simp only [programRoom, memorySize, programStart, UInt16.toNat_ofNat'] at fits h eq
  omega

end Memory

end ChipEight
