import Mathlib.Data.Nat.ModEq
import ChipEight.Proofs.Machine.Commands

namespace ChipEight

/-!
# Addresses count modulo the size of memory

Two machines mirror each other if they differ at most by multiples of 4096 in the
program counter, the index register and the slots of the call stack. No sequence of
commands can tell them apart, except by the address that an invalid instruction is
reported at.
-/

def SameCell (a b : UInt16) : Prop := a.toNat ≡ b.toNat [MOD 4096]

namespace SameCell

variable {a b : UInt16}

theorem refl (a : UInt16) : SameCell a a := Nat.ModEq.refl _

theorem cell_eq (h : SameCell a b) : Memory.cell a = Memory.cell b :=
  (Memory.cell_eq_iff a b).mpr h

theorem add (h : SameCell a b) (k : UInt16) : SameCell (a + k) (b + k) := by
  unfold SameCell Nat.ModEq at h ⊢
  simp only [UInt16.toNat_add]
  omega

theorem sub (h : SameCell a b) (k : UInt16) : SameCell (a - k) (b - k) := by
  unfold SameCell Nat.ModEq at h ⊢
  simp only [UInt16.toNat_sub]
  omega

theorem read_eq (h : SameCell a b) (m : Memory) : m.read a = m.read b :=
  congrArg m.get h.cell_eq

theorem write_eq (h : SameCell a b) (m : Memory) (v : UInt8) : m.write a v = m.write b v := by
  rw [Memory.write, Memory.write, h.cell_eq]

theorem readList_eq (h : SameCell a b) (m : Memory) (count : Nat) :
    m.readList a count = m.readList b count := by
  induction count generalizing a b with
  | zero => rfl
  | succ count ih => rw [Memory.readList, Memory.readList, h.read_eq m, ih (h.add 1)]

theorem writeList_eq (h : SameCell a b) (m : Memory) (bytes : List UInt8) :
    m.writeList a bytes = m.writeList b bytes := by
  induction bytes generalizing m a b with
  | nil => rfl
  | cons v rest ih => rw [Memory.writeList, Memory.writeList, h.write_eq m, ih (h.add 1)]

end SameCell

namespace CallStack

structure Mirrors (s t : CallStack) : Prop where
  depth : s.depth = t.depth
  slots : ∀ k : Fin 16, SameCell s.slots[k] t.slots[k]

namespace Mirrors

variable {s t : CallStack}

theorem push? (h : s.Mirrors t) {a b : UInt16} (hab : SameCell a b) :
    Option.Rel Mirrors (s.push? a) (t.push? b) := by
  rcases s with ⟨u, d, hd⟩
  rcases t with ⟨v, e, he⟩
  obtain rfl : d = e := h.depth
  by_cases hlt : d < 16
  · simp only [CallStack.push?, hlt, dif_pos]
    refine .some ⟨rfl, fun k => ?_⟩
    have hk := h.slots k
    simp only [Fin.getElem_fin, Vector.getElem_set] at hk ⊢
    split
    · exact hab
    · exact hk
  · simp only [CallStack.push?, hlt, dif_neg, not_false_eq_true]
    exact .none

theorem pop? (h : s.Mirrors t) :
    Option.Rel (fun p q => SameCell p.1 q.1 ∧ p.2.Mirrors q.2) s.pop? t.pop? := by
  rcases s with ⟨u, d, hd⟩
  rcases t with ⟨v, e, he⟩
  obtain rfl : d = e := h.depth
  cases d with
  | zero => exact .none
  | succ d => exact .some ⟨h.slots ⟨d, hd⟩, rfl, h.slots⟩

end Mirrors

end CallStack

namespace State

/-- Equal but for the index, the counter and the return addresses, which name the same cells. -/
structure Mirrors (s t : State) : Prop where
  registers : s.registers = t.registers
  index : SameCell s.index t.index
  counter : SameCell s.counter t.counter
  calls : s.calls.Mirrors t.calls
  delay : s.delay = t.delay
  memory : s.memory = t.memory
  screen : s.screen = t.screen

namespace Mirrors

variable {s t : State}

theorem refl (s : State) : s.Mirrors s :=
  ⟨rfl, .refl _, .refl _, ⟨rfl, fun _ => .refl _⟩, rfl, rfl, rfl⟩

theorem reg (h : s.Mirrors t) (x : Reg) : s.reg x = t.reg x := by
  rw [State.reg, State.reg, h.registers]

theorem setReg (h : s.Mirrors t) (x : Reg) (b : UInt8) : (s.setReg x b).Mirrors (t.setReg x b) :=
  { h with registers := congrArg (fun r : Registers => r.set x.val b x.isLt) h.registers }

theorem jump (h : s.Mirrors t) {a b : UInt16} (hab : SameCell a b) :
    Mirrors { s with counter := a } { t with counter := b } :=
  { h with counter := hab }

theorem paint (h : s.Mirrors t) (p : Screen) :
    Mirrors { s with screen := p } { t with screen := p } :=
  { h with screen := rfl }

theorem enter (h : s.Mirrors t) {a b : UInt16} (hab : SameCell a b) {p q : CallStack}
    (hpq : p.Mirrors q) :
    Mirrors { s with counter := a, calls := p } { t with counter := b, calls := q } :=
  { h with counter := hab, calls := hpq }

theorem setDelay (h : s.Mirrors t) (d : UInt8) :
    Mirrors { s with delay := d } { t with delay := d } :=
  { h with delay := rfl }

theorem point (h : s.Mirrors t) {a b : UInt16} (hab : SameCell a b) :
    Mirrors { s with index := a } { t with index := b } :=
  { h with index := hab }

theorem advance (h : s.Mirrors t) : s.advance.Mirrors t.advance := h.jump (h.counter.add 2)

theorem rewind (h : s.Mirrors t) : s.rewind.Mirrors t.rewind := h.jump (h.counter.sub 2)

theorem countDown (h : s.Mirrors t) : s.countDown.Mirrors t.countDown := by
  simp only [State.countDown, h.delay]
  exact h.setDelay _

theorem shown (h : s.Mirrors t) : s.shown.Mirrors t.shown := by
  simp only [State.shown, h.screen]
  exact h.paint _

theorem fetch_eq (h : s.Mirrors t) : s.fetch = t.fetch := by
  rw [State.fetch, State.fetch, h.memory, h.counter.read_eq, (h.counter.add 1).read_eq]

theorem holds_eq (h : s.Mirrors t) (keys : Keypad) (c : Condition) :
    c.holds keys s = c.holds keys t := by
  cases c <;> simp only [Condition.holds, h.reg]

theorem combine (h : s.Mirrors t) (f : Combine) (x y : Reg) :
    (s.combine f x y).Mirrors (t.combine f x y) := by
  have hx := h.reg x
  have hy := h.reg y
  unfold State.combine
  simp only [hx, hy]
  cases f.flag? (t.reg x) (t.reg y) with
  | none => exact h.setReg x _
  | some c => exact (h.setReg x _).setReg flag _

theorem draw (h : s.Mirrors t) (x y : Reg) (rows : Fin 16) :
    (s.draw x y rows).Mirrors (t.draw x y rows) := by
  have hsprite : s.memory.readList s.index rows.val = t.memory.readList t.index rows.val := by
    rw [h.memory, h.index.readList_eq]
  unfold State.draw
  simp only [h.reg, h.screen, hsprite]
  generalize (t.screen.collides _ _ _).toUInt8 = hit
  generalize t.screen.draw _ _ _ = drawn
  have hpaint := (h.setReg flag hit).paint drawn
  exact hpaint

theorem store (h : s.Mirrors t) (bytes : List UInt8) :
    Mirrors { s with memory := s.memory.writeList s.index bytes }
      { t with memory := t.memory.writeList t.index bytes } := by
  refine { h with memory := ?_ }
  change s.memory.writeList s.index bytes = t.memory.writeList t.index bytes
  rw [h.memory, h.index.writeList_eq]

theorem loadRegs (h : s.Mirrors t) (x : Reg) : (s.loadRegs x).Mirrors (t.loadRegs x) := by
  have hread (k : UInt16) : s.memory.read (s.index + k) = t.memory.read (t.index + k) := by
    rw [h.memory, (h.index.add k).read_eq]
  simp only [State.loadRegs, hread, h.reg]
  exact { h with registers := rfl }

end Mirrors

end State

namespace Fault

def Mirrors : Fault → Fault → Prop
  | invalidInstruction w a, invalidInstruction v b => w = v ∧ SameCell a b
  | f, g => f = g

theorem Mirrors.refl (f : Fault) : f.Mirrors f := by
  cases f with
  | invalidInstruction w a => exact ⟨rfl, .refl a⟩
  | _ => exact rfl

end Fault

/-- Two values that are related, or two faults that mirror each other. -/
inductive Mirrored {α : Type} (related : α → α → Prop) : Except Fault α → Except Fault α → Prop
  | ok {a b : α} : related a b → Mirrored related (.ok a) (.ok b)
  | error {f g : Fault} : f.Mirrors g → Mirrored related (.error f) (.error g)

structure Effect.Mirrors (e f : Effect) : Prop where
  state : e.state.Mirrors f.state
  random : e.random = f.random
  beep : e.beep = f.beep
  awaits : e.awaits = f.awaits

namespace Instruction

theorem ok_mirrors {s t : State} (h : s.Mirrors t) {g : Generator} {beep : Option UInt8}
    {awaits : Option Reg} :
    Mirrored Effect.Mirrors (.ok ⟨s, g, beep, awaits⟩) (.ok ⟨t, g, beep, awaits⟩) :=
  .ok ⟨h, rfl, rfl, rfl⟩

theorem execute_mirrors (i : Instruction) (keys : Keypad) (g : Generator) {s t : State}
    (h : s.Mirrors t) : Mirrored Effect.Mirrors (i.execute keys g s) (i.execute keys g t) := by
  cases i with
  | clear => exact ok_mirrors (h.paint _)
  | ret =>
      have hpop := h.calls.pop?
      simp only [execute]
      generalize s.calls.pop? = p at hpop ⊢
      generalize t.calls.pop? = q at hpop ⊢
      cases hpop with
      | none => exact .error (.refl _)
      | some hpq => exact ok_mirrors (h.enter hpq.1 hpq.2)
  -- the target of a jump is the same address for both
  | jump target => exact ok_mirrors (h.jump (.refl _))
  | call target =>
      have hpush := h.calls.push? h.counter
      simp only [execute]
      generalize s.calls.push? s.counter = p at hpush ⊢
      generalize t.calls.push? t.counter = q at hpush ⊢
      cases hpush with
      | none => exact .error (.refl _)
      | some hpq => exact ok_mirrors (h.enter (.refl _) hpq)
  | jumpOffset target =>
      simp only [execute, h.reg]
      exact ok_mirrors (h.jump (.refl _))
  | skipIf c =>
      simp only [execute, h.holds_eq]
      cases c.holds keys t with
      | true => exact ok_mirrors (h.advance)
      | false => exact ok_mirrors h
  | setByte x k => exact ok_mirrors (h.setReg x k)
  | addByte x k =>
      simp only [execute, h.reg]
      exact ok_mirrors (h.setReg x _)
  | combine f x y => exact ok_mirrors (h.combine f x y)
  | setIndex target => exact ok_mirrors (h.point (.refl _))
  | addIndex x =>
      simp only [execute, h.reg]
      exact ok_mirrors (h.point (h.index.add _))
  | pointAtDigit x =>
      simp only [execute, h.reg]
      exact ok_mirrors (h.point (.refl _))
  | random x mask => exact ok_mirrors (h.setReg x _)
  | draw x y rows => exact ok_mirrors (h.draw x y rows)
  | readDelay x =>
      simp only [execute, h.delay]
      exact ok_mirrors (h.setReg x _)
  | writeDelay x =>
      simp only [execute, h.reg]
      exact ok_mirrors (h.setDelay _)
  | beep x =>
      simp only [execute, h.reg]
      exact ok_mirrors h
  | awaitKey x =>
      simp only [execute]
      cases keys.least? with
      | none => exact ok_mirrors (h.rewind)
      | some k => exact ok_mirrors (h.setReg x _)
  | storeDigits x =>
      simp only [execute, h.reg]
      exact ok_mirrors (h.store _)
  | save x =>
      have hregs : s.regsUpTo x = t.regsUpTo x := by
        rw [State.regsUpTo, State.regsUpTo, h.registers]
      simp only [execute, hregs]
      exact ok_mirrors (h.store _)
  | restore x => exact ok_mirrors (h.loadRegs x)

end Instruction

namespace Machine

structure Mirrors (m n : Machine) : Prop where
  state : m.state.Mirrors n.state
  keys : m.keys = n.keys
  random : m.random = n.random

end Machine

structure Reply.Mirrors (r q : Reply) : Prop where
  machine : r.machine.Mirrors q.machine
  result : Mirrored Eq r.result q.result
  beeps : r.beeps = q.beeps
  frames : r.frames = q.frames

namespace Machine

namespace Mirrors

variable {m n : Machine}

theorem past (h : m.Mirrors n) : m.past.Mirrors n.past :=
  ⟨h.state.advance, h.keys, h.random⟩

theorem perform (h : m.Mirrors n) (i : Instruction) : (m.perform i).Mirrors (n.perform i) := by
  have hexec := i.execute_mirrors n.keys n.random h.past.state
  unfold Machine.perform
  rw [h.keys, h.random]
  generalize i.execute n.keys n.random m.past.state = p at hexec ⊢
  generalize i.execute n.keys n.random n.past.state = q at hexec ⊢
  cases hexec with
  | error hfault => exact ⟨h.past, .error hfault, rfl, rfl⟩
  | @ok e f heffect =>
      have hbeeps : e.output.filterMap Output.beep? = f.output.filterMap Output.beep? := by
        simp only [Effect.filterMap_beep?_output, heffect.beep]
      have hframes : e.output.filterMap Output.frame? = f.output.filterMap Output.frame? := by
        simp only [Effect.filterMap_frame?_output]
      exact ⟨⟨heffect.state, rfl, heffect.random⟩, .ok rfl, hbeeps, hframes⟩

theorem step (h : m.Mirrors n) : m.step.Mirrors n.step := by
  have hfetch := h.state.fetch_eq
  cases hi : Instruction.ofWord? n.state.fetch with
  | none =>
      rw [step_of_none hi, step_of_none (hfetch ▸ hi)]
      exact ⟨h.past, .error ⟨hfetch, h.state.counter⟩, rfl, rfl⟩
  | some i =>
      rw [step_of_some hi, step_of_some (hfetch ▸ hi)]
      exact h.perform i

theorem tick (h : m.Mirrors n) : m.tick.Mirrors n.tick := by
  simp only [Machine.tick, h.state.screen]
  cases n.state.screen.stale with
  | true => exact ⟨⟨h.state.countDown.shown, h.keys, h.random⟩, .ok rfl, rfl, rfl⟩
  | false => exact ⟨⟨h.state.countDown, h.keys, h.random⟩, .ok rfl, rfl, rfl⟩

theorem setKey (h : m.Mirrors n) (code : UInt8) (down : Bool) :
    (m.setKey code down).Mirrors (n.setKey code down) := by
  simp only [Machine.setKey, h.keys]
  cases Keypad.key? code with
  | none => exact ⟨h, .error (.refl _), rfl, rfl⟩
  | some k => exact ⟨⟨h.state, rfl, h.random⟩, .ok rfl, rfl, rfl⟩

theorem load (h : m.Mirrors n) (program : List UInt8) :
    (m.load program).Mirrors (n.load program) := by
  unfold Machine.load
  by_cases hfits : program.length ≤ programRoom
  · rw [if_pos hfits, if_pos hfits]
    exact ⟨⟨.refl _, h.keys, h.random⟩, .ok rfl, rfl, rfl⟩
  · rw [if_neg hfits, if_neg hfits]
    exact ⟨h, .error (.refl _), rfl, rfl⟩

theorem obey (h : m.Mirrors n) (c : Command) : (m.obey c).Mirrors (n.obey c) := by
  cases c with
  | load program => exact h.load program
  | reset => exact ⟨⟨.refl _, h.keys, h.random⟩, .ok rfl, rfl, rfl⟩
  | step => exact h.step
  | tick => exact h.tick
  | press code => exact h.setKey code true
  | release code => exact h.setKey code false

theorem after (h : m.Mirrors n) (commands : List Command) :
    (m.after commands).Mirrors (n.after commands) :=
  after_related (R := Mirrors) (fun hmn c => (hmn.obey c).machine) h commands

end Mirrors

/-- From mirrored machines, the same commands give the same answers all along: the machines stay
mirrored, and after any commands the next one is obeyed by both or refused by both for mirrored
faults, with the same beeps, the same frames and the same random bytes. -/
theorem mirrored_runs {m n : Machine} (h : m.Mirrors n) (commands : List Command)
    (next : Command) :
    (m.after commands).Mirrors (n.after commands) ∧
    ((m.after commands).obey next).Mirrors ((n.after commands).obey next) ∧
    (m.after commands).drawnBy next = (n.after commands).drawnBy next := by
  have hafter := h.after commands
  have hnext := hafter.obey next
  refine ⟨hafter, hnext, ?_⟩
  rw [drawnBy, drawnBy, hafter.random, hnext.machine.random]

theorem mirrored_runs_of_higher_addresses :
    let m := powerOn ⟨Vector.replicate 8 0, 0⟩
    let n := { m with state := { m.state with counter := 0x1200, index := 0xF000 } }
    let commands := [.press 0x3, .tick, .step]
    m.Mirrors n ∧ (m.after commands).Mirrors (n.after commands) ∧
      ((m.after commands).obey .step).frames = ((n.after commands).obey .step).frames := by
  intro m n commands
  have hindex : SameCell m.state.index n.state.index := by
    unfold SameCell
    decide
  have hcounter : SameCell m.state.counter n.state.counter := by
    unfold SameCell
    decide
  have h : m.Mirrors n :=
    ⟨{ State.Mirrors.refl m.state with index := hindex, counter := hcounter }, rfl, rfl⟩
  have hrun := mirrored_runs h commands .step
  exact ⟨h, hrun.1, hrun.2.1.frames⟩

end Machine

end ChipEight
