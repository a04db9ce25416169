import ChipEight.Proofs.Memory.Wrapping

namespace ChipEight

/-!
# The image of a program

What memory holds when a program has been put in: the digits at the bottom, the program
from its start on, and zeros elsewhere. A program given as words is found again word by
word.
-/

namespace Word

/-- The bytes of words in order, each with its high byte first. -/
def bytes (words : List Word) : List UInt8 := words.flatMap fun w => [w.high, w.low]

@[simp] theorem bytes_nil : bytes [] = [] := rfl

@[simp] theorem bytes_cons (w : Word) (rest : List Word) :
    bytes (w :: rest) = w.high :: w.low :: bytes rest := rfl

@[simp] theorem length_bytes (words : List Word) : (bytes words).length = 2 * words.length := by
  induction words with
  | nil => rfl
  | cons w rest ih =>
      simp only [bytes_cons, List.length_cons, ih]
      omega

theorem length_bytes_le {words : List Word} (h : words.length ≤ 1792) :
    (bytes words).length ≤ programRoom := by
  rw [length_bytes]
  simp only [programRoom, memorySize, programStart]
  omega

theorem getElem?_bytes (words : List Word) (k : Nat) :
    (bytes words)[2 * k]? = words[k]?.map high ∧ (bytes words)[2 * k + 1]? = words[k]?.map low := by
  induction words generalizing k with
  | nil => exact ⟨rfl, rfl⟩
  | cons w rest ih =>
      cases k with
      | zero => exact ⟨rfl, rfl⟩
      | succ k =>
          have h := ih k
          simpa only [bytes_cons, Nat.mul_succ, List.getElem?_cons_succ] using h

end Word

namespace Memory

/-- What memory holds at power-on but for a program. -/
def image (program : List UInt8) (c : Fin 4096) : UInt8 :=
  if c.val < programStart then Font.sheet[c.val]?.getD 0
  else program[c.val - programStart]?.getD 0

theorem image_eq_of_sheet {c : Fin 4096} {b : UInt8} (h : Font.sheet[c.val]? = some b)
    (program : List UInt8) : image program c = b := by
  obtain ⟨hlen, -⟩ := List.getElem?_eq_some_iff.mp h
  have hlow : c.val < programStart := by
    rw [Font.length_sheet] at hlen
    simp only [Font.glyphHeight, programStart] at hlen ⊢
    omega
  rw [image, if_pos hlow, h, Option.getD_some]

theorem image_eq_of_program {program : List UInt8} {c : Fin 4096} {k : Nat} {b : UInt8}
    (hc : c.val = 0x200 + k) (h : program[k]? = some b) : image program c = b := by
  have hhigh : ¬c.val < programStart := by
    rw [hc]
    exact Nat.not_lt.mpr (Nat.le_add_right _ k)
  rw [image, if_neg hhigh, hc, programStart, Nat.add_sub_cancel_left, h, Option.getD_some]

@[simp] theorem withProgram_nil : withProgram [] = powerOn := by
  rw [withProgram, writeList_nil]

theorem get_withProgram {program : List UInt8} (fits : program.length ≤ programRoom)
    (c : Fin 4096) : (withProgram program).get c = image program c := by
  unfold image
  by_cases hlow : c.val < programStart
  · rw [if_pos hlow, get_withProgram_of_not_mem fits (Or.inl hlow), get_powerOn]
  · rw [if_neg hlow]
    by_cases hin : c.val - programStart < program.length
    · have hc : c = cell (UInt16.ofNat programStart + UInt16.ofNat (c.val - programStart)) := by
        have := c.isLt
        rw [Fin.ext_iff, val_cell_add]
        simp only [programStart, UInt16.toNat_ofNat'] at hlow ⊢
        omega
      rw [List.getElem?_eq_getElem hin, Option.getD_some, ← get_withProgram_of_mem fits hin, ← hc]
    · have hbehind : programStart + program.length ≤ c.val := by omega
      have hsheet : Font.sheet.length ≤ c.val := by
        rw [Font.length_sheet]
        simp only [programStart, Font.glyphHeight] at hlow ⊢
        omega
      rw [get_withProgram_of_not_mem fits (Or.inr hbehind), get_powerOn,
        List.getElem?_eq_none hsheet, List.getElem?_eq_none (by omega)]

theorem byteAt_withProgram {program : List UInt8} (fits : program.length ≤ programRoom) {k : Nat}
    (hk : k < programRoom) : (withProgram program).byteAt (0x200 + k) = program[k]?.getD 0 := by
  have hcell : (0x200 + k) % 4096 = 0x200 + k := Nat.mod_eq_of_lt (by
    simp only [programRoom, memorySize, programStart] at hk
    omega)
  rw [byteAt, get_withProgram fits, image]
  simp only [hcell, programStart, Nat.not_lt.mpr (Nat.le_add_right 0x200 k), if_false,
    Nat.add_sub_cancel_left]

/-- Within the room for programs, what is not written is the word zero. -/
theorem wordAt_withProgram {program : List Word} (fits : program.length ≤ 1792) {k : Nat}
    (hk : k < 1792) :
    (withProgram (Word.bytes program)).wordAt (0x200 + 2 * k) = program[k]?.getD 0 := by
  have hroom := Word.length_bytes_le fits
  have hlt : 2 * k + 1 < programRoom := by
    simp only [programRoom, memorySize, programStart]
    omega
  obtain ⟨hhigh, hlow⟩ := Word.getElem?_bytes program k
  rw [wordAt, Nat.add_assoc, byteAt_withProgram hroom (Nat.lt_of_succ_lt hlt),
    byteAt_withProgram hroom hlt, hhigh, hlow]
  cases program[k]? with
  | none => rfl
  | some w => exact Word.ofBytes_high_low w

/-- Behind the last cell the digits begin again. -/
theorem wordAt_withProgram_end {program : List UInt8} (fits : program.length ≤ programRoom) :
    (withProgram program).wordAt 0x1000 = 0xF090 := by
  simp only [wordAt, byteAt, get_withProgram fits]
  rfl

end Memory

end ChipEight
