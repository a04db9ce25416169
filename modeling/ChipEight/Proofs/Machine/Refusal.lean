import ChipEight.Proofs.Instruction.Effects
import ChipEight.Proofs.Instruction.Table
import ChipEight.Proofs.Machine.Outputs
import ChipEight.Proofs.Memory.Wrapping

namespace ChipEight.Machine

/-!
# Refused steps

When a step is refused, for which fault, and what is left behind: the program counter
has passed the word, a word that is no instruction is warned about, and that is all.
-/

def Underflows (m : Machine) : Prop :=
  m.state.fetch.group.val = 0x0 ∧ m.state.fetch.nn = 0xEE ∧ m.state.calls.depth = 0

def Overflows (m : Machine) : Prop :=
  m.state.fetch.group.val = 0x2 ∧ m.state.calls.depth = 16

/-- Instructions leave the slots for faults alone, so only a return or a call is refused. -/
theorem execute_past_eq_error_iff {m : Machine} {i : Instruction}
    (hi : Instruction.ofWord? m.state.fetch = some i) (f : Fault) :
    i.execute m.keys m.random m.past.state = .error f ↔
      m.Underflows ∧ f = .stackUnderflow ∨ m.Overflows ∧ f = .stackOverflow := by
  rw [Instruction.execute_eq_error_iff, ← Word.isReturn_iff hi, ← Word.isCall_iff hi]
  simp only [Underflows, Overflows, Word.IsReturn, Word.IsCall, past, State.advance, and_assoc]

theorem not_underflows_of_not_listed {m : Machine} (h : ¬m.state.fetch.Listed) :
    ¬m.Underflows := by
  intro hu
  exact h (Or.inl ⟨hu.1, Or.inr hu.2.1⟩)

theorem not_overflows_of_not_listed {m : Machine} (h : ¬m.state.fetch.Listed) :
    ¬m.Overflows := by
  intro ho
  refine h (Or.inr (Or.inl ?_))
  rw [ho.1]
  decide

theorem result_step_eq_error_iff (m : Machine) (f : Fault) :
    m.step.result = .error f ↔
      ¬m.state.fetch.Listed ∧ f = .invalidInstruction m.state.fetch m.state.counter ∨
      m.Underflows ∧ f = .stackUnderflow ∨ m.Overflows ∧ f = .stackOverflow := by
  cases hi : Instruction.ofWord? m.state.fetch with
  | none =>
      have hl := (Instruction.ofWord?_eq_none_iff _).mp hi
      have hu := not_underflows_of_not_listed hl
      have ho := not_overflows_of_not_listed hl
      simp [step_of_none hi, reject, hl, hu, ho, eq_comm]
  | some i =>
      have hl : m.state.fetch.Listed :=
        (Instruction.isValid_iff_listed _).mp (by simp [Instruction.IsValid, hi])
      rw [step_of_some hi, ← execute_past_eq_error_iff hi f]
      cases he : i.execute m.keys m.random m.past.state with
      | error g => simp [perform_of_error he, hl]
      | ok e => simp [perform_of_ok he, hl]

/-- A refused step leaves the machine behind the word and lets nothing out but the report of
the fetch, and for a word that is no instruction a warning. -/
theorem step_of_result_eq_error {m : Machine} {f : Fault} (h : m.step.result = .error f) :
    m.step.machine = m.past ∧ m.step.beeps = [] ∧ m.step.frames = [] := by
  rcases m.step_cases with ⟨_, hs⟩ | ⟨i, g, _, _, hs⟩ | ⟨i, e, _, _, hs⟩
  · rw [hs]
    exact ⟨rfl, rfl, rfl⟩
  · rw [hs]
    exact ⟨rfl, rfl, rfl⟩
  · rw [hs] at h
    cases h

theorem warnings_step (m : Machine) :
    m.step.warnings =
      match m.step.result with
      | .error (.invalidInstruction word address) => [.rejected word address]
      | _ => [] := by
  rcases m.step_cases with ⟨_, hs⟩ | ⟨i, g, hi, he, hs⟩ | ⟨i, e, _, _, hs⟩
  · rw [hs]
    rfl
  · rw [hs]
    rcases (execute_past_eq_error_iff hi g).mp he with ⟨_, rfl⟩ | ⟨_, rfl⟩ <;> rfl
  · rw [hs]
    rcases e with ⟨s, g, _ | d, _ | x⟩ <;> rfl

theorem result_step_eq_ok_iff (m : Machine) :
    m.step.result = .ok () ↔ m.state.fetch.Listed ∧ ¬m.Underflows ∧ ¬m.Overflows := by
  have herr := result_step_eq_error_iff m
  constructor
  · intro h
    simp only [h, reduceCtorEq, false_iff, not_or] at herr
    refine ⟨?_, fun hu => (herr _).2.1 ⟨hu, rfl⟩, fun ho => (herr _).2.2 ⟨ho, rfl⟩⟩
    by_contra hl
    exact (herr _).1 ⟨hl, rfl⟩
  · rintro ⟨hl, hu, ho⟩
    cases h : m.step.result with
    | ok => rfl
    | error f =>
        rcases (herr f).mp h with ⟨hn, _⟩ | ⟨hn, _⟩ | ⟨hn, _⟩
        · exact absurd hl hn
        · exact absurd hn hu
        · exact absurd hn ho

theorem past_eq (m : Machine) :
    m.past = { m with state :=
      { m.state with counter := UInt16.ofNat ((m.state.counter.toNat + 2) % 65536) } } := by
  have hc : m.state.counter + 2 = UInt16.ofNat ((m.state.counter.toNat + 2) % 65536) := by
    apply UInt16.toNat_inj.mp
    simp only [UInt16.toNat_add, UInt16.toNat_ofNat', UInt16.toNat_ofNat]
    omega
  simp only [past, State.advance, hc]

/-- A step is refused exactly when the word at the program counter is not in the table, is a
return without a call, or is a call without room; what it leaves behind is the machine with
its program counter moved past the word. -/
theorem step_refusals (m : Machine) :
    let a := m.state.counter
    let w := m.state.memory.wordAt a.toNat
    let depth := m.state.calls.depth
    (∀ word address, m.step.result = .error (.invalidInstruction word address) ↔
      ¬w.Listed ∧ word = w ∧ address = a) ∧
    (m.step.result = .error .stackUnderflow ↔ w.group.val = 0x0 ∧ w.nn = 0xEE ∧ depth = 0) ∧
    (m.step.result = .error .stackOverflow ↔ w.group.val = 0x2 ∧ depth = 16) ∧
    (m.step.result = .ok () ↔ w.Listed ∧ ¬(w.group.val = 0x0 ∧ w.nn = 0xEE ∧ depth = 0) ∧
      ¬(w.group.val = 0x2 ∧ depth = 16)) ∧
    (∀ f, m.step.result = .error f →
      m.step.machine = { m with state :=
        { m.state with counter := UInt16.ofNat ((a.toNat + 2) % 65536) } } ∧
      m.step.beeps = [] ∧ m.step.frames = [] ∧ m.drawnBy .step = []) ∧
    m.step.warnings =
      match m.step.result with
      | .error (.invalidInstruction word address) => [.rejected word address]
      | _ => [] := by
  intro a w depth
  have hw : w = m.state.fetch := m.state.fetch_eq_wordAt.symm
  have herr := result_step_eq_error_iff m
  rw [hw]
  refine ⟨?_, ?_, ?_, m.result_step_eq_ok_iff, ?_, m.warnings_step⟩
  · intro word address
    simp [herr, a]
  · simp [herr, Underflows, depth]
  · simp [herr, Overflows, depth]
  · intro f hf
    obtain ⟨hm, hb, hfr⟩ := step_of_result_eq_error hf
    refine ⟨hm.trans m.past_eq, hb, hfr, ?_⟩
    rw [drawnBy, obey, hm]
    exact m.random.bytesUntil_self

theorem wordAt_powerOn_programStart : Memory.powerOn.wordAt 0x200 = 0 := by
  simp only [Memory.wordAt, Memory.byteAt, Memory.get_powerOn]
  decide

theorem step_refusals_at_powerOn :
    let m := powerOn ⟨Vector.replicate 8 0, 0⟩
    m.step.result = .error (.invalidInstruction 0 0x200) ∧
      m.step.machine = { m with state := { m.state with counter := 0x202 } } ∧
      m.step.warnings = [.rejected 0 0x200] := by
  intro m
  have h := step_refusals m
  have hw : m.state.memory.wordAt m.state.counter.toNat = 0 := wordAt_powerOn_programStart
  have hf : m.step.result = .error (.invalidInstruction 0 0x200) := by
    refine (h.1 0 0x200).mpr ⟨?_, hw.symm, rfl⟩
    rw [hw]
    unfold Word.Listed
    decide
  refine ⟨hf, (h.2.2.2.2.1 _ hf).1, ?_⟩
  rw [h.2.2.2.2.2, hf]

end ChipEight.Machine
