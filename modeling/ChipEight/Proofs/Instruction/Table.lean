import Mathlib.Data.Fintype.Basic
import Mathlib.Tactic.FinCases
import ChipEight.Instruction.Decode
import ChipEight.Instruction.Execute

namespace ChipEight

/-!
# The instruction table

The instruction set read the other way round: `Encodes` says which words stand for
an instruction, and `Listed` which words stand for any. Decoding is shown to be the
inverse of the first, with the second as its domain.
-/

namespace Combine

def digit : Combine → Nat
  | copy => 0x0
  | or => 0x1
  | and => 0x2
  | xor => 0x3
  | add => 0x4
  | subtract => 0x5
  | shiftRight => 0x6
  | subtractFrom => 0x7
  | shiftLeft => 0xE

theorem ofDigit?_eq_some_iff (n : Fin 16) (f : Combine) :
    ofDigit? n.val = some f ↔ n.val = f.digit := by
  revert n
  cases f <;> decide

theorem isSome_ofDigit?_iff (n : Fin 16) : (ofDigit? n.val).isSome ↔ n.val ≤ 0x7 ∨ n.val = 0xE := by
  revert n
  decide

end Combine

namespace Word

def Encodes (w : Word) : Instruction → Prop
  | .clear => w.group.val = 0x0 ∧ w.nn = 0xE0
  | .ret => w.group.val = 0x0 ∧ w.nn = 0xEE
  | .jump target => w.group.val = 0x1 ∧ w.nnn = target
  | .call target => w.group.val = 0x2 ∧ w.nnn = target
  | .skipIf (.equalsByte x k) => w.group.val = 0x3 ∧ w.x = x ∧ w.nn = k
  | .skipIf (.differsByte x k) => w.group.val = 0x4 ∧ w.x = x ∧ w.nn = k
  | .skipIf (.equalsReg x y) => w.group.val = 0x5 ∧ w.x = x ∧ w.y = y
  | .setByte x k => w.group.val = 0x6 ∧ w.x = x ∧ w.nn = k
  | .addByte x k => w.group.val = 0x7 ∧ w.x = x ∧ w.nn = k
  | .combine f x y => w.group.val = 0x8 ∧ w.n.val = f.digit ∧ w.x = x ∧ w.y = y
  | .skipIf (.differsReg x y) => w.group.val = 0x9 ∧ w.x = x ∧ w.y = y
  | .setIndex target => w.group.val = 0xA ∧ w.nnn = target
  | .jumpOffset target => w.group.val = 0xB ∧ w.nnn = target
  | .random x mask => w.group.val = 0xC ∧ w.x = x ∧ w.nn = mask
  | .draw x y rows => w.group.val = 0xD ∧ w.x = x ∧ w.y = y ∧ w.n = rows
  | .skipIf (.keyHeld x) => w.group.val = 0xE ∧ w.nn = 0x9E ∧ w.x = x
  | .skipIf (.keyFree x) => w.group.val = 0xE ∧ w.nn = 0xA1 ∧ w.x = x
  | .readDelay x => w.group.val = 0xF ∧ w.nn = 0x07 ∧ w.x = x
  | .awaitKey x => w.group.val = 0xF ∧ w.nn = 0x0A ∧ w.x = x
  | .writeDelay x => w.group.val = 0xF ∧ w.nn = 0x15 ∧ w.x = x
  | .beep x => w.group.val = 0xF ∧ w.nn = 0x18 ∧ w.x = x
  | .addIndex x => w.group.val = 0xF ∧ w.nn = 0x1E ∧ w.x = x
  | .pointAtDigit x => w.group.val = 0xF ∧ w.nn = 0x29 ∧ w.x = x
  | .storeDigits x => w.group.val = 0xF ∧ w.nn = 0x33 ∧ w.x = x
  | .save x => w.group.val = 0xF ∧ w.nn = 0x55 ∧ w.x = x
  | .restore x => w.group.val = 0xF ∧ w.nn = 0x65 ∧ w.x = x

/-- The rows of the table. A digit that a row does not look at is left open. -/
def Listed (w : Word) : Prop :=
  w.group.val = 0x0 ∧ (w.nn = 0xE0 ∨ w.nn = 0xEE) ∨
  0x1 ≤ w.group.val ∧ w.group.val ≤ 0x7 ∨
  w.group.val = 0x8 ∧ (w.n.val ≤ 0x7 ∨ w.n.val = 0xE) ∨
  0x9 ≤ w.group.val ∧ w.group.val ≤ 0xD ∨
  w.group.val = 0xE ∧ (w.nn = 0x9E ∨ w.nn = 0xA1) ∨
  w.group.val = 0xF ∧ w.nn ∈ [0x07, 0x0A, 0x15, 0x18, 0x1E, 0x29, 0x33, 0x55, 0x65]

end Word

namespace Instruction

theorem encodes_of_ofSystemByte? {w : Word} {i : Instruction} (hg : w.group.val = 0x0)
    (h : ofSystemByte? w.nn.toNat = some i) : w.Encodes i := by
  unfold ofSystemByte? at h
  split at h <;> cases h
  all_goals exact ⟨hg, UInt8.toNat_inj.mp ‹_›⟩

theorem encodes_of_ofKeyByte? {w : Word} {i : Instruction} (hg : w.group.val = 0xE)
    (h : ofKeyByte? w.x w.nn.toNat = some i) : w.Encodes i := by
  unfold ofKeyByte? at h
  split at h <;> cases h
  all_goals exact ⟨hg, UInt8.toNat_inj.mp ‹_›, rfl⟩

theorem encodes_of_ofDeviceByte? {w : Word} {i : Instruction} (hg : w.group.val = 0xF)
    (h : ofDeviceByte? w.x w.nn.toNat = some i) : w.Encodes i := by
  unfold ofDeviceByte? at h
  split at h <;> cases h
  all_goals exact ⟨hg, UInt8.toNat_inj.mp ‹_›, rfl⟩

theorem encodes_of_ofWord? {w : Word} {i : Instruction} (h : ofWord? w = some i) :
    w.Encodes i := by
  unfold ofWord? at h
  split at h
  case h_1 hg => exact encodes_of_ofSystemByte? hg h
  case h_9 hg =>
    obtain ⟨f, hf, rfl⟩ := Option.map_eq_some_iff.mp h
    exact ⟨hg, (Combine.ofDigit?_eq_some_iff _ _).mp hf, rfl, rfl⟩
  case h_15 hg => exact encodes_of_ofKeyByte? hg h
  case h_16 hg => exact encodes_of_ofDeviceByte? hg h
  case h_17 => cases h
  all_goals
    cases h
    simp only [Word.Encodes, and_true]
    assumption

theorem ofWord?_of_encodes {w : Word} {i : Instruction} (h : w.Encodes i) :
    ofWord? w = some i := by
  rcases i with _ | _ | _ | _ | _ | ⟨_ | _ | _ | _ | _ | _⟩ | _ | _ | _ | _ | _ | _ | _ | _ |
    _ | _ | _ | _ | _ | _ | _
  case combine f x y =>
    obtain ⟨hg, hn, rfl, rfl⟩ := h
    have hf := (Combine.ofDigit?_eq_some_iff w.n f).mpr hn
    simp only [ofWord?, hg, hf]
    rfl
  all_goals
    simp only [Word.Encodes] at h
    simp only [ofWord?, ofSystemByte?, ofKeyByte?, ofDeviceByte?, h, UInt8.reduceToNat]

/-- Decoding is the inverse of the table. -/
theorem ofWord?_eq_some_iff (w : Word) (i : Instruction) :
    ofWord? w = some i ↔ w.Encodes i :=
  ⟨encodes_of_ofWord?, ofWord?_of_encodes⟩

theorem isSome_ofSystemByte?_iff (b : UInt8) :
    (ofSystemByte? b.toNat).isSome ↔ b = 0xE0 ∨ b = 0xEE := by
  simp only [← UInt8.toNat_inj]
  unfold ofSystemByte?
  split <;> simp_all

theorem isSome_ofKeyByte?_iff (x : Reg) (b : UInt8) :
    (ofKeyByte? x b.toNat).isSome ↔ b = 0x9E ∨ b = 0xA1 := by
  simp only [← UInt8.toNat_inj]
  unfold ofKeyByte?
  split <;> simp_all

theorem isSome_ofDeviceByte?_iff (x : Reg) (b : UInt8) :
    (ofDeviceByte? x b.toNat).isSome ↔
      b ∈ [0x07, 0x0A, 0x15, 0x18, 0x1E, 0x29, 0x33, 0x55, 0x65] := by
  simp only [List.mem_cons, ← UInt8.toNat_inj]
  unfold ofDeviceByte?
  split <;> simp_all

theorem isValid_iff_listed (w : Word) : IsValid w ↔ w.Listed := by
  unfold IsValid Word.Listed ofWord?
  generalize w.group = g
  fin_cases g
  case «0» => simpa using isSome_ofSystemByte?_iff w.nn
  case «8» => simpa using Combine.isSome_ofDigit?_iff w.n
  case «14» => simpa using isSome_ofKeyByte?_iff w.x w.nn
  case «15» => simpa using isSome_ofDeviceByte?_iff w.x w.nn
  all_goals simp

theorem ofWord?_eq_none_iff (w : Word) : ofWord? w = none ↔ ¬w.Listed := by
  rw [← isValid_iff_listed, IsValid, Bool.not_eq_true, Option.isSome_eq_false_iff,
    Option.isNone_iff_eq_none]

end Instruction

namespace Word

def IsCall (w : Word) : Prop := w.group.val = 0x2

def IsReturn (w : Word) : Prop := w.group.val = 0x0 ∧ w.nn = 0xEE

def IsRandom (w : Word) : Prop := w.group.val = 0xC

/-- The words that combine two registers and report in the flag register. -/
def IsArithmetic (w : Word) : Prop := w.group.val = 0x8 ∧ w.n.val ∈ [0x4, 0x5, 0x6, 0x7, 0xE]

def ReadsDelay (w : Word) : Prop := w.group.val = 0xF ∧ w.nn = 0x07

def TestsHeld (w : Word) : Prop := w.group.val = 0xE ∧ w.nn = 0x9E

def TestsFree (w : Word) : Prop := w.group.val = 0xE ∧ w.nn = 0xA1

def AwaitsKey (w : Word) : Prop := w.group.val = 0xF ∧ w.nn = 0x0A

def WritesDelay (w : Word) : Prop := w.group.val = 0xF ∧ w.nn = 0x15

def PointsAtDigit (w : Word) : Prop := w.group.val = 0xF ∧ w.nn = 0x29

def StoresDigits (w : Word) : Prop := w.group.val = 0xF ∧ w.nn = 0x33

def Saves (w : Word) : Prop := w.group.val = 0xF ∧ w.nn = 0x55

def Restores (w : Word) : Prop := w.group.val = 0xF ∧ w.nn = 0x65

instance (w : Word) : Decidable w.IsCall := inferInstanceAs (Decidable (_ = _))

instance (w : Word) : Decidable w.IsReturn := inferInstanceAs (Decidable (_ ∧ _))

instance (w : Word) : Decidable w.IsRandom := inferInstanceAs (Decidable (_ = _))

instance (w : Word) : Decidable w.IsArithmetic := inferInstanceAs (Decidable (_ ∧ _))

instance (w : Word) : Decidable w.ReadsDelay := inferInstanceAs (Decidable (_ ∧ _))

instance (w : Word) : Decidable w.TestsHeld := inferInstanceAs (Decidable (_ ∧ _))

instance (w : Word) : Decidable w.TestsFree := inferInstanceAs (Decidable (_ ∧ _))

instance (w : Word) : Decidable w.AwaitsKey := inferInstanceAs (Decidable (_ ∧ _))

instance (w : Word) : Decidable w.WritesDelay := inferInstanceAs (Decidable (_ ∧ _))

instance (w : Word) : Decidable w.PointsAtDigit := inferInstanceAs (Decidable (_ ∧ _))

instance (w : Word) : Decidable w.StoresDigits := inferInstanceAs (Decidable (_ ∧ _))

instance (w : Word) : Decidable w.Saves := inferInstanceAs (Decidable (_ ∧ _))

instance (w : Word) : Decidable w.Restores := inferInstanceAs (Decidable (_ ∧ _))

theorem IsCall.ofWord? {w : Word} (h : w.IsCall) :
    Instruction.ofWord? w = some (.call w.nnn) :=
  Instruction.ofWord?_of_encodes (i := .call w.nnn) ⟨h, rfl⟩

theorem IsReturn.ofWord? {w : Word} (h : w.IsReturn) : Instruction.ofWord? w = some .ret :=
  Instruction.ofWord?_of_encodes (i := .ret) h

theorem IsRandom.ofWord? {w : Word} (h : w.IsRandom) :
    Instruction.ofWord? w = some (.random w.x w.nn) :=
  Instruction.ofWord?_of_encodes (i := .random w.x w.nn) ⟨h, rfl, rfl⟩

theorem TestsHeld.ofWord? {w : Word} (h : w.TestsHeld) :
    Instruction.ofWord? w = some (.skipIf (.keyHeld w.x)) :=
  Instruction.ofWord?_of_encodes (i := .skipIf (.keyHeld w.x)) ⟨h.1, h.2, rfl⟩

theorem TestsFree.ofWord? {w : Word} (h : w.TestsFree) :
    Instruction.ofWord? w = some (.skipIf (.keyFree w.x)) :=
  Instruction.ofWord?_of_encodes (i := .skipIf (.keyFree w.x)) ⟨h.1, h.2, rfl⟩

theorem AwaitsKey.ofWord? {w : Word} (h : w.AwaitsKey) :
    Instruction.ofWord? w = some (.awaitKey w.x) :=
  Instruction.ofWord?_of_encodes (i := .awaitKey w.x) ⟨h.1, h.2, rfl⟩

theorem ReadsDelay.ofWord? {w : Word} (h : w.ReadsDelay) :
    Instruction.ofWord? w = some (.readDelay w.x) :=
  Instruction.ofWord?_of_encodes (i := .readDelay w.x) ⟨h.1, h.2, rfl⟩

theorem WritesDelay.ofWord? {w : Word} (h : w.WritesDelay) :
    Instruction.ofWord? w = some (.writeDelay w.x) :=
  Instruction.ofWord?_of_encodes (i := .writeDelay w.x) ⟨h.1, h.2, rfl⟩

theorem PointsAtDigit.ofWord? {w : Word} (h : w.PointsAtDigit) :
    Instruction.ofWord? w = some (.pointAtDigit w.x) :=
  Instruction.ofWord?_of_encodes (i := .pointAtDigit w.x) ⟨h.1, h.2, rfl⟩

theorem StoresDigits.ofWord? {w : Word} (h : w.StoresDigits) :
    Instruction.ofWord? w = some (.storeDigits w.x) :=
  Instruction.ofWord?_of_encodes (i := .storeDigits w.x) ⟨h.1, h.2, rfl⟩

theorem Saves.ofWord? {w : Word} (h : w.Saves) : Instruction.ofWord? w = some (.save w.x) :=
  Instruction.ofWord?_of_encodes (i := .save w.x) ⟨h.1, h.2, rfl⟩

theorem Restores.ofWord? {w : Word} (h : w.Restores) :
    Instruction.ofWord? w = some (.restore w.x) :=
  Instruction.ofWord?_of_encodes (i := .restore w.x) ⟨h.1, h.2, rfl⟩

theorem isCall_iff {w : Word} {i : Instruction} (hi : Instruction.ofWord? w = some i) :
    w.IsCall ↔ ∃ target, i = .call target := by
  constructor
  · intro h
    exact ⟨w.nnn, Option.some.inj (hi.symm.trans h.ofWord?)⟩
  · rintro ⟨target, rfl⟩
    exact (Instruction.encodes_of_ofWord? hi).1

theorem isReturn_iff {w : Word} {i : Instruction} (hi : Instruction.ofWord? w = some i) :
    w.IsReturn ↔ i = .ret := by
  constructor
  · intro h
    exact Option.some.inj (hi.symm.trans h.ofWord?)
  · rintro rfl
    exact Instruction.encodes_of_ofWord? hi

/-- The instruction that a word stands for turns a state into an effect. -/
def Executes (w : Word) (keys : Keypad) (random : Generator) (s : State) (e : Effect) : Prop :=
  ∃ i, Instruction.ofWord? w = some i ∧ i.execute keys random s = .ok e

theorem executes_iff {w : Word} {i : Instruction} (hi : Instruction.ofWord? w = some i)
    (keys : Keypad) (random : Generator) (s : State) (e : Effect) :
    w.Executes keys random s e ↔ i.execute keys random s = .ok e := by
  simp only [Executes, hi, Option.some.injEq, exists_eq_left']

end Word

end ChipEight
