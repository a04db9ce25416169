import ChipEight.Proofs.Machine.Keys
import ChipEight.Proofs.Memory.Image

namespace ChipEight

/-!
# Restarts forget

A load that is refused changes nothing. A load that is obeyed, and a reset, put a fixed
state in the place of any, so nothing that a machine has been through tells on what it does
afterwards: only the held keys and the random numbers go on.
-/

namespace Keypad

/-- Press the keys that are held, least first. -/
def presses (p : Keypad) : List Command :=
  ((List.finRange 16).filter p.isHeld).map fun k => .press (UInt8.ofNat k.val)

end Keypad

/-- The state of power-on, but for the bytes of a program from the start of programs on. -/
structure State.HoldsOnly (program : List UInt8) (s : State) : Prop where
  rest : s = { State.powerOn with memory := s.memory }
  inside : ∀ (c : Fin 4096) k b, c.val = 0x200 + k → program[k]? = some b → s.memory.get c = b
  outside : ∀ c : Fin 4096, c.val < 0x200 ∨ 0x200 + program.length ≤ c.val →
    s.memory.get c = State.powerOn.memory.get c

namespace State

theorem holdsOnly_withProgram {program : List UInt8} (fits : program.length ≤ programRoom) :
    (State.withProgram program).HoldsOnly program where
  rest := rfl
  inside := by
    intro c k b hc hb
    exact (Memory.get_withProgram fits c).trans (Memory.image_eq_of_program hc hb)
  outside := fun c hc => Memory.get_withProgram_of_not_mem fits hc

end State

namespace Machine

variable {program : List UInt8}

/-- What a load leaves behind depends on the machine before it through keys and random numbers
only. -/
theorem load_congr (fits : program.length ≤ programRoom) {m n : Machine} (hkeys : m.keys = n.keys)
    (hrandom : m.random = n.random) : m.load program = n.load program := by
  rw [load_of_le fits, load_of_le fits, hkeys, hrandom]

theorem load_load (fits : program.length ≤ programRoom) (m : Machine) (first : List UInt8) :
    (m.load first).machine.load program = m.load program := by
  rcases Nat.lt_or_ge programRoom first.length with hlarge | hfirst
  · rw [load_of_lt hlarge]
  · rw [load_of_le hfirst]
    exact load_congr fits rfl rfl

theorem after_presses (random : Generator) (keys : Keypad) :
    (powerOn random).after keys.presses = ⟨.powerOn, keys, random⟩ := by
  rw [Keypad.presses, after_map_press]
  -- From a free keypad, pressing the held keys holds these and no others.
  have hkeys : ((List.finRange 16).filter keys.isHeld).foldl (fun q k => q.set k true) .free =
      keys := by
    apply Keypad.ext
    intro k
    rw [Bool.eq_iff_iff, Keypad.isHeld_foldl_set]
    simp
  exact congrArg (fun p => (⟨.powerOn, p, random⟩ : Machine)) hkeys

/-- A program of more than 3584 bytes is refused and leaves the machine as it was. Any other puts
the state of power-on with that program in the place of any state and keeps keys and random
numbers, so machines with the same keys and random numbers go on alike from there, and an earlier
load makes no difference. A reset makes of a machine a new one with the same random numbers on
which the held keys have been pressed. -/
theorem restarts_forget (program : List UInt8) :
    (3584 < program.length → ∀ m : Machine,
      m.load program = ⟨m, [], .error (.programTooLarge program.length 3584)⟩) ∧
    (program.length ≤ 3584 →
      (∀ m : Machine, (m.load program).result = .ok () ∧ (m.load program).frames = [] ∧
        (m.load program).machine.state.HoldsOnly program ∧
        (m.load program).machine.keys = m.keys ∧ (m.load program).machine.random = m.random) ∧
      (∀ m n : Machine, m.keys = n.keys → m.random = n.random → ∀ commands,
        m.replies (.load program :: commands) = n.replies (.load program :: commands)) ∧
      ∀ (m : Machine) first commands,
        (m.load first).machine.replies (.load program :: commands) =
          m.replies (.load program :: commands)) ∧
    ∀ m : Machine, m.reset.result = .ok () ∧ m.reset.frames = [] ∧
      m.reset.machine = (powerOn m.random).after m.keys.presses ∧
      ∀ commands, m.reset.machine.replies commands =
        ((powerOn m.random).after m.keys.presses).replies commands := by
  refine ⟨?_, ?_, ?_⟩
  · intro large m
    exact load_of_lt large m
  · intro fits
    refine ⟨?_, ?_, ?_⟩
    · intro m
      rw [load_of_le fits]
      exact ⟨rfl, rfl, State.holdsOnly_withProgram fits, rfl, rfl⟩
    · intro m n hkeys hrandom commands
      have hload : m.load program = n.load program := load_congr fits hkeys hrandom
      simp only [replies, obey, hload]
    · intro m first commands
      have hload := load_load fits m first
      simp only [replies, obey, hload]
  · intro m
    have hnew : m.reset.machine = (powerOn m.random).after m.keys.presses :=
      (after_presses m.random m.keys).symm
    refine ⟨rfl, rfl, hnew, ?_⟩
    intro commands
    rw [hnew]

/-- A machine with another program, a running timer and a call behind it goes on like a new one. -/
theorem restarts_forget_of_longer_program :
    let random : Generator := ⟨Vector.replicate 8 0, 0⟩
    let m := (powerOn random).after
      [.load [0x60, 0x07, 0xF0, 0x15, 0x22, 0x06, 0x00, 0xE0], .step, .step, .step]
    let n := powerOn random
    let large : List UInt8 := List.replicate 3585 0
    let program : List UInt8 := [0xF0, 0x07]
    3584 < large.length ∧ (m.load large).result = .error (.programTooLarge large.length 3584) ∧
      m.state.delay ≠ n.state.delay ∧ m.state.calls.depth ≠ n.state.calls.depth ∧
      program.length ≤ 3584 ∧ m.keys = n.keys ∧ m.random = n.random ∧
      m.replies [.load program, .step] = n.replies [.load program, .step] := by
  intro random m n large program
  have hlarge : 3584 < large.length := by
    rw [List.length_replicate]
    decide
  have fits : program.length ≤ 3584 := by decide
  have hkeys : m.keys = n.keys := by decide +kernel
  have hrandom : m.random = n.random := by decide +kernel
  have hdelay : m.state.delay ≠ n.state.delay := by decide +kernel
  have hdepth : m.state.calls.depth ≠ n.state.calls.depth := by decide +kernel
  have hrefused := (restarts_forget large).1 hlarge m
  have halike := ((restarts_forget program).2.1 fits).2.1 m n hkeys hrandom [.step]
  exact ⟨hlarge, congrArg Reply.result hrefused, hdelay, hdepth, fits, hkeys, hrandom, halike⟩

end Machine

end ChipEight
