import ChipEight.Proofs.Instruction.Table
import ChipEight.Proofs.Machine.Commands

namespace ChipEight

/-!
# One random byte for each random step

The generator moves on by one byte when a step asks for a random number, and at no other
time: refused commands, restarts and masks of zero make no difference. So its position is
the number of such steps since power-on, and the bytes of its stream go to them in order.
-/

namespace Generator

theorem bytesUntil_next (g : Generator) : g.bytesUntil g.next = [g.peek] := by
  have hone : g.next.drawn - g.drawn = 1 := Nat.add_sub_cancel_left g.drawn 1
  rw [bytesUntil, hone]
  rfl

end Generator

namespace Machine

/-- Commands other than steps that ask for a random number. -/
theorem random_obey_of_not {m : Machine} {c : Command}
    (h : ¬(c = .step ∧ m.state.fetch.IsRandom)) : (m.obey c).machine.random = m.random := by
  by_cases hstep : c = .step
  · subst hstep
    rcases m.step_cases with ⟨_, hs⟩ | ⟨i, f, _, _, hs⟩ | ⟨i, e, hi, he, hs⟩
    · rw [obey, hs]
      rfl
    · rw [obey, hs]
      rfl
    · rw [obey, hs]
      refine Instruction.random_of_execute ?_ he
      rintro x mask rfl
      exact h ⟨rfl, (Instruction.encodes_of_ofWord? hi).1⟩
  · by_cases hr : c.Restarts
    · rcases obey_of_restarts hr with ⟨state, output, _, heq⟩ | ⟨f, heq⟩
      · rw [heq]
      · rw [heq]
    · exact (m.obey_of_ne_step hstep (mt Command.Renews.restarts hr)).1

theorem step_of_isRandom {m : Machine} (h : m.state.fetch.IsRandom) :
    m.step = ⟨{ m with
      state := m.past.state.setReg m.state.fetch.x (m.random.peek &&& m.state.fetch.nn)
      random := m.random.next }, [m.fetched], .ok ()⟩ := by
  rw [step_of_some h.ofWord?]
  rfl

theorem random_after (m : Machine) (commands : List Command) :
    (m.after commands).random =
      ⟨m.random.key, m.random.drawn + m.countSteps (fun s => s.fetch.IsRandom) commands⟩ := by
  induction commands generalizing m with
  | nil => rfl
  | cons c rest ih =>
      rw [after_cons, ih, countSteps]
      by_cases h : c = .step ∧ m.state.fetch.IsRandom
      · obtain ⟨rfl, hw⟩ := h
        have hnext : (m.obey .step).machine.random = m.random.next := by
          rw [obey, step_of_isRandom hw]
        rw [hnext, if_pos ⟨rfl, hw⟩]
        simp only [Generator.next, Nat.add_assoc]
      · rw [random_obey_of_not h, if_neg h, Nat.zero_add]

/-- After any commands from power-on with a seed, the generator has given as many bytes as there
were steps asking for a random number. If the next step is one, it puts the next byte of the
seed's stream, masked, into its register and changes no other; any other command takes no byte. -/
theorem random_bytes_in_order (seed : UInt64) (commands : List Command) :
    let byte := Random.byteAt (Random.keyOfSeed seed)
    let now := (powerOn (.ofSeed seed)).after commands
    let k := (powerOn (.ofSeed seed)).countSteps (fun s => s.fetch.IsRandom) commands
    let w := now.state.fetch
    now.random = ⟨Random.keyOfSeed seed, k⟩ ∧
    (w.IsRandom →
      now.step.result = .ok () ∧ now.step.machine.state.reg w.x = byte k &&& w.nn ∧
      (∀ y, y ≠ w.x → now.step.machine.state.reg y = now.state.reg y) ∧
      now.drawnBy .step = [byte k]) ∧
    ∀ c, ¬(c = .step ∧ w.IsRandom) →
      now.drawnBy c = [] ∧ (now.obey c).machine.random = now.random := by
  intro byte now k w
  have hrandom : now.random = ⟨Random.keyOfSeed seed, 0 + k⟩ :=
    random_after (powerOn (.ofSeed seed)) commands
  rw [Nat.zero_add] at hrandom
  have hpeek : now.random.peek = byte k := by
    rw [hrandom]
    rfl
  refine ⟨hrandom, ?_, ?_⟩
  · intro hw
    have hstep := step_of_isRandom hw
    rw [hpeek] at hstep
    refine ⟨?_, ?_, ?_, ?_⟩
    · rw [hstep]
    · rw [hstep]
      exact State.reg_setReg_self _ _ _
    · intro y hy
      rw [hstep]
      exact State.reg_setReg_of_ne _ hy.symm _
    · rw [drawnBy, obey, hstep]
      exact now.random.bytesUntil_next.trans (congrArg (fun b => [b]) hpeek)
  · intro c hc
    have hsame := random_obey_of_not hc
    refine ⟨?_, hsame⟩
    rw [drawnBy, hsame, Generator.bytesUntil_self]

/-- The fourth byte goes to the fourth such step, with a mask of zero, a reset, a refused word and
a second load before it. -/
theorem random_bytes_in_order_across_loads :
    let seed : UInt64 := 7
    let program : List UInt8 := [0xC1, 0x00, 0xC2, 0xFF]
    let commands : List Command :=
      [.load program, .step, .step, .reset, .step, .load program, .tick, .step]
    let now := (powerOn (.ofSeed seed)).after commands
    now.state.fetch.IsRandom ∧ now.random = ⟨Random.keyOfSeed seed, 3⟩ ∧
      now.step.machine.state.reg 0x2 =
        Random.byteAt (Random.keyOfSeed seed) 3 &&& now.state.fetch.nn := by
  intro seed program commands now
  have hw : now.state.fetch.IsRandom := by decide +kernel
  have hx : now.state.fetch.x = 0x2 := by decide +kernel
  have hk : (powerOn (.ofSeed seed)).countSteps (fun s => s.fetch.IsRandom) commands = 3 := by
    decide +kernel
  have hrun := random_bytes_in_order seed commands
  rw [hk] at hrun
  have hreg := (hrun.2.1 hw).2.1
  rw [hx] at hreg
  exact ⟨hw, hrun.1, hreg⟩

end Machine

end ChipEight
