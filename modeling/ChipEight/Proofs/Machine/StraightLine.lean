import Mathlib.Data.List.Induction
import ChipEight.Proofs.Instruction.Table
import ChipEight.Proofs.Machine.Commands
import ChipEight.Proofs.Memory.Image

namespace ChipEight

/-!
# Programs without jumps

A program of words that never jump, skip, wait or store is executed word by word, in
order, however many ticks and keys come in between. It stops at the first word behind its
end: a zero, or the first two bytes of the digits if it fills memory.
-/

namespace Word

/-- The rows of the table that go on to the next word in any state and leave memory alone. -/
def Sequential (w : Word) : Prop :=
  w.group.val = 0x0 ∧ w.nn = 0xE0 ∨
  w.group.val ∈ [0x6, 0x7, 0xA, 0xC, 0xD] ∨
  w.group.val = 0x8 ∧ (w.n.val ≤ 0x7 ∨ w.n.val = 0xE) ∨
  w.group.val = 0xF ∧ w.nn ∈ [0x07, 0x15, 0x18, 0x1E, 0x29, 0x65]

instance (w : Word) : Decidable w.Sequential := inferInstanceAs (Decidable (_ ∨ _))

end Word

namespace Instruction

def Sequential : Instruction → Prop
  | .clear | .setByte .. | .addByte .. | .combine .. | .setIndex _ | .addIndex _
  | .pointAtDigit _ | .random .. | .draw .. | .readDelay _ | .writeDelay _ | .beep _
  | .restore _ => True
  | _ => False

theorem exists_encodes_of_sequential {w : Word} (h : w.Sequential) :
    ∃ i : Instruction, w.Encodes i ∧ i.Sequential := by
  rcases h with ⟨hg, hnn⟩ | hg | ⟨hg, hn⟩ | ⟨hg, hnn⟩
  · exact ⟨.clear, ⟨hg, hnn⟩, trivial⟩
  · simp only [List.mem_cons, List.not_mem_nil, or_false] at hg
    rcases hg with hg | hg | hg | hg | hg
    · exact ⟨.setByte w.x w.nn, ⟨hg, rfl, rfl⟩, trivial⟩
    · exact ⟨.addByte w.x w.nn, ⟨hg, rfl, rfl⟩, trivial⟩
    · exact ⟨.setIndex w.nnn, ⟨hg, rfl⟩, trivial⟩
    · exact ⟨.random w.x w.nn, ⟨hg, rfl, rfl⟩, trivial⟩
    · exact ⟨.draw w.x w.y w.n, ⟨hg, rfl, rfl, rfl⟩, trivial⟩
  · obtain ⟨f, hf⟩ := Option.isSome_iff_exists.mp ((Combine.isSome_ofDigit?_iff w.n).mpr hn)
    exact ⟨.combine f w.x w.y, ⟨hg, (Combine.ofDigit?_eq_some_iff w.n f).mp hf, rfl, rfl⟩, trivial⟩
  · simp only [List.mem_cons, List.not_mem_nil, or_false] at hnn
    rcases hnn with hnn | hnn | hnn | hnn | hnn | hnn
    · exact ⟨.readDelay w.x, ⟨hg, hnn, rfl⟩, trivial⟩
    · exact ⟨.writeDelay w.x, ⟨hg, hnn, rfl⟩, trivial⟩
    · exact ⟨.beep w.x, ⟨hg, hnn, rfl⟩, trivial⟩
    · exact ⟨.addIndex w.x, ⟨hg, hnn, rfl⟩, trivial⟩
    · exact ⟨.pointAtDigit w.x, ⟨hg, hnn, rfl⟩, trivial⟩
    · exact ⟨.restore w.x, ⟨hg, hnn, rfl⟩, trivial⟩

theorem execute_of_sequential {i : Instruction} (h : i.Sequential) (keys : Keypad)
    (random : Generator) (s : State) :
    ∃ e, i.execute keys random s = .ok e ∧ e.state.counter = s.counter ∧
      e.state.memory = s.memory := by
  cases i with
  | combine f x y => cases f <;> exact ⟨_, rfl, rfl, rfl⟩
  | restore x =>
      refine ⟨{ state := s.loadRegs x, random }, rfl, ?_, ?_⟩
      · rw [State.loadRegs]
      · rw [State.loadRegs]
  | ret | jump _ | call _ | jumpOffset _ | skipIf _ | awaitKey _ | storeDigits _ | save _ =>
      exact h.elim
  | _ => exact ⟨_, rfl, rfl, rfl⟩

end Instruction

namespace Machine

/-- At word `k` of a program that memory holds as it was put in. -/
structure Stands (program : List Word) (k : Nat) (m : Machine) : Prop where
  counter : m.state.counter.toNat = 0x200 + 2 * k
  memory : m.state.memory = .withProgram (Word.bytes program)

/-- What the step at word `k` of a program makes of a machine. -/
def ExecutesWord (program : List Word) (k : Nat) (m : Machine) : Prop :=
  ∃ w i e, program[k]? = some w ∧ w.Encodes i ∧
    i.execute m.keys m.random { m.state with counter := UInt16.ofNat (0x202 + 2 * k) } = .ok e ∧
    m.step = ⟨{ m with state := e.state, random := e.random }, m.fetched :: e.output, .ok ()⟩

namespace Stands

variable {program : List Word} {k : Nat} {m : Machine}

theorem counter_eq (h : m.Stands program k) : m.state.counter = UInt16.ofNat (0x200 + 2 * k) := by
  rw [← h.counter, UInt16.ofNat_toNat]

theorem fetch_eq (h : m.Stands program k) (hlen : program.length ≤ 1792) (hk : k < 1792) :
    m.state.fetch = program[k]?.getD 0 := by
  rw [State.fetch_eq_wordAt, h.memory, h.counter, Memory.wordAt_withProgram hlen hk]

theorem executesWord (h : m.Stands program k) (hlen : program.length ≤ 1792)
    (hseq : ∀ w ∈ program, w.Sequential) (hk : k < program.length) :
    m.ExecutesWord program k ∧ m.step.machine.Stands program (k + 1) := by
  have hword : program[k]? = some program[k] := List.getElem?_eq_getElem hk
  have hfetch : m.state.fetch = program[k] := by
    rw [h.fetch_eq hlen (hk.trans_le hlen), hword, Option.getD_some]
  obtain ⟨i, henc, hi⟩ := Instruction.exists_encodes_of_sequential (hseq _ (List.getElem_mem hk))
  have hcounter : m.state.counter + 2 = UInt16.ofNat (0x202 + 2 * k) := by
    apply UInt16.toNat_inj.mp
    rw [UInt16.toNat_add, h.counter]
    simp only [UInt16.toNat_ofNat, UInt16.toNat_ofNat']
    omega
  have hpast : m.past.state = { m.state with counter := UInt16.ofNat (0x202 + 2 * k) } := by
    rw [past, State.advance, hcounter]
  obtain ⟨e, hexec, hnext, hmem⟩ :=
    Instruction.execute_of_sequential hi m.keys m.random m.past.state
  have hstep := (step_of_some (hfetch ▸ Instruction.ofWord?_of_encodes henc)).trans
    (perform_of_ok hexec)
  refine ⟨⟨program[k], i, e, hword, henc, hpast ▸ hexec, hstep⟩, ?_⟩
  rw [hstep]
  constructor
  · change e.state.counter.toNat = _
    rw [hnext, hpast]
    simp only [UInt16.toNat_ofNat']
    omega
  · exact hmem.trans h.memory

theorem obey_of_ne_step (h : m.Stands program k) {c : Command} (hstep : c ≠ .step)
    (hc : ¬c.Restarts) : (m.obey c).machine.Stands program k := by
  obtain ⟨_, delay, screen, hs⟩ := m.obey_of_ne_step hstep (mt Command.Renews.restarts hc)
  constructor
  · rw [hs]
    exact h.counter
  · rw [hs]
    exact h.memory

theorem result_step_end (h : m.Stands program program.length) (hlen : program.length < 1792) :
    m.step.result =
      .error (.invalidInstruction 0 (UInt16.ofNat (0x200 + 2 * program.length))) := by
  have hfetch : m.state.fetch = 0 := by
    rw [h.fetch_eq (Nat.le_of_lt hlen) hlen, List.getElem?_eq_none (Nat.le_refl _)]
    rfl
  have hnone : Instruction.ofWord? 0 = none := by decide
  rw [step_of_none (hfetch ▸ hnone), reject, hfetch, h.counter_eq]

theorem result_step_full (h : m.Stands program program.length) (hlen : program.length = 1792) :
    m.step.result = .error (.invalidInstruction 0xF090 0x1000) := by
  have hcounter : m.state.counter = 0x1000 := by
    rw [h.counter_eq, hlen]
    rfl
  have hfetch : m.state.fetch = 0xF090 := by
    rw [State.fetch_eq_wordAt, h.memory, hcounter]
    exact Memory.wordAt_withProgram_end (Word.length_bytes_le hlen.le)
  have hnone : Instruction.ofWord? 0xF090 = none := by decide
  rw [step_of_none (hfetch ▸ hnone), reject, hfetch, hcounter]

end Stands

theorem load_bytes {program : List Word} (hlen : program.length ≤ 1792) (m : Machine) :
    (m.load (Word.bytes program)).result = .ok () ∧
      (m.load (Word.bytes program)).machine.Stands program 0 := by
  rw [load, if_pos (Word.length_bytes_le hlen)]
  exact ⟨rfl, rfl, rfl⟩

theorem Stands.after {program : List Word} {m : Machine} (h : m.Stands program 0)
    (hlen : program.length ≤ 1792) (hseq : ∀ w ∈ program, w.Sequential) {commands : List Command}
    (hc : ∀ c ∈ commands, ¬c.Restarts) (hcount : commands.count .step ≤ program.length) :
    (m.after commands).Stands program (commands.count .step) := by
  induction commands using List.reverseRecOn with
  | nil => exact h
  | append_singleton commands c ih =>
      rw [List.count_append] at hcount ⊢
      have hbefore := ih (fun d hd => hc d (List.mem_append_left _ hd))
        ((Nat.le_add_right _ _).trans hcount)
      rw [after_append_singleton]
      by_cases hstep : c = .step
      · subst hstep
        rw [List.count_singleton_self] at hcount ⊢
        exact (hbefore.executesWord hlen hseq hcount).2
      · rw [List.count_singleton, if_neg (by simpa using hstep), Nat.add_zero]
        exact hbefore.obey_of_ne_step hstep (hc c (by simp))

/-- A program of at most 1792 sequential words can be loaded into any machine. However many ticks
and keys come in between, each step up to the last word executes the word whose turn it is, and
the next one is refused: at the zero behind the program, or at the digits if it fills memory. All
along, memory is as it was when the program had been put in. -/
theorem straight_line_runs {program : List Word} (hlen : program.length ≤ 1792)
    (hseq : ∀ w ∈ program, w.Sequential) (m : Machine) :
    (m.load (Word.bytes program)).result = .ok () ∧
    ∀ commands : List Command, (∀ c ∈ commands, ¬c.Restarts) →
      commands.count .step ≤ program.length →
      let now := (m.load (Word.bytes program)).machine.after commands
      let k := commands.count .step
      now.state.counter = UInt16.ofNat (0x200 + 2 * k) ∧
      (∀ c, now.state.memory.get c = Memory.image (Word.bytes program) c) ∧
      (k < program.length → now.ExecutesWord program k) ∧
      (k = program.length → program.length < 1792 →
        now.step.result = .error (.invalidInstruction 0x0000 (UInt16.ofNat (0x200 + 2 * k)))) ∧
      (k = program.length → program.length = 1792 →
        now.step.result = .error (.invalidInstruction 0xF090 0x1000)) := by
  obtain ⟨hok, hstart⟩ := load_bytes hlen m
  refine ⟨hok, ?_⟩
  intro commands hc hcount now k
  have hstands : now.Stands program k := hstart.after hlen hseq hc hcount
  refine ⟨hstands.counter_eq, ?_, ?_, ?_, ?_⟩
  · intro c
    rw [hstands.memory]
    exact Memory.get_withProgram (Word.length_bytes_le hlen) c
  · intro hk
    exact (hstands.executesWord hlen hseq hk).1
  · intro hk hlt
    rw [hk] at hstands ⊢
    exact hstands.result_step_end hlt
  · intro hk hfull
    rw [hk] at hstands
    exact hstands.result_step_full hfull

theorem straight_line_runs_of_full_memory :
    let program : List Word := List.replicate 1792 0x00E0
    let commands := List.replicate 1792 Command.step ++ [.tick, .press 0x3]
    let m := powerOn ⟨Vector.replicate 8 0, 0⟩
    program.length ≤ 1792 ∧ (∀ w ∈ program, w.Sequential) ∧ (∀ c ∈ commands, ¬c.Restarts) ∧
      commands.count .step = program.length ∧
      (m.load (Word.bytes program)).result = .ok () ∧
      ((m.load (Word.bytes program)).machine.after commands).step.result =
        .error (.invalidInstruction 0xF090 0x1000) := by
  intro program commands m
  have hlen : program.length = 1792 := List.length_replicate
  have hseq : ∀ w ∈ program, w.Sequential := by
    intro w hw
    rw [List.eq_of_mem_replicate hw]
    decide
  have hc : ∀ c ∈ commands, ¬c.Restarts := by
    intro c hmem
    rcases List.mem_append.mp hmem with h | h
    · rw [List.eq_of_mem_replicate h]
      exact id
    · simp only [List.mem_cons, List.not_mem_nil, or_false] at h
      rcases h with rfl | rfl <;> exact id
  have hcount : commands.count .step = program.length := by
    rw [List.count_append, List.count_replicate_self, hlen]
    rfl
  have hrun := straight_line_runs hlen.le hseq m
  have hend := hrun.2 commands hc hcount.le
  exact ⟨hlen.le, hseq, hc, hcount, hrun.1, hend.2.2.2.2 hcount hlen⟩

end Machine

end ChipEight
