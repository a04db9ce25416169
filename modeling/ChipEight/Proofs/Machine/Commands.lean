import ChipEight.Proofs.Instruction.Effects
import ChipEight.Proofs.Machine.Outputs

namespace ChipEight

/-!
# Runs of commands

What the commands other than steps do to a machine, and how facts about one command are
carried over to a run: through a relation that every command keeps, or by singling out
the steps of the run that start from a certain state.
-/

namespace Command

/-- The commands that put a machine back to power-on. The others are steps, ticks and keys. -/
def Restarts : Command → Prop
  | .load _ | .reset => True
  | _ => False

/-- The restarts that are not refused. -/
def Renews : Command → Prop
  | .load program => program.length ≤ programRoom
  | .reset => True
  | _ => False

theorem Renews.restarts {c : Command} (h : c.Renews) : c.Restarts := by
  cases c with
  | load program => exact trivial
  | reset => exact trivial
  | _ => exact h

/-- Where a run ends in `c`, a command picked out of it is this last one or lies before it. -/
theorem split_append_singleton {commands first rest : List Command} {c d : Command}
    (h : commands ++ [c] = first ++ d :: rest) :
    first = commands ∧ d = c ∧ rest = [] ∨
      ∃ before, rest = before ++ [c] ∧ commands = first ++ d :: before := by
  rcases List.eq_nil_or_concat rest with rfl | ⟨before, e, rfl⟩
  · obtain ⟨rfl, hlast⟩ := List.append_inj' h rfl
    exact Or.inl ⟨rfl, (List.singleton_inj.mp hlast).symm, rfl⟩
  · rw [List.concat_eq_append, ← List.cons_append, ← List.append_assoc] at h
    obtain ⟨rfl, hlast⟩ := List.append_inj' h rfl
    obtain rfl := List.singleton_inj.mp hlast
    exact Or.inr ⟨before, List.concat_eq_append, rfl⟩

end Command

namespace Machine

/-- Pass the call stack and memory through functions. -/
def mapParts (q : CallStack → CallStack) (r : Memory → Memory) (m : Machine) : Machine :=
  { m with state := m.state.mapParts id q r }

end Machine

namespace Reply

def mapParts (q : CallStack → CallStack) (r : Memory → Memory) (a : Reply) : Reply :=
  { a with machine := a.machine.mapParts q r }

end Reply

namespace Machine

/-- A restart puts a fixed state in the place of any, or is refused and changes nothing. -/
theorem obey_of_restarts {c : Command} (hc : c.Restarts) :
    (∃ state output, state.calls = .empty ∧
      ∀ m : Machine, m.obey c = ⟨{ m with state }, output, .ok ()⟩) ∨
    ∃ f, ∀ m : Machine, m.obey c = ⟨m, [], .error f⟩ := by
  cases c with
  | load program =>
      rcases Nat.lt_or_ge programRoom program.length with large | fits
      · exact Or.inr ⟨_, load_of_lt large⟩
      · exact Or.inl ⟨.withProgram program, _, rfl, load_of_le fits⟩
  | reset => exact Or.inl ⟨.powerOn, _, rfl, fun m => rfl⟩
  | _ => exact hc.elim

theorem renews_iff (m : Machine) (c : Command) :
    c.Renews ↔ c.Restarts ∧ (m.obey c).result = .ok () := by
  cases c with
  | load program =>
      simp only [Command.Renews, Command.Restarts, obey, load, true_and]
      split <;> simp [*]
  | reset => exact ⟨fun _ => ⟨trivial, rfl⟩, fun _ => trivial⟩
  | _ => exact ⟨False.elim, fun h => h.1⟩

/-- Ticks, keys and a refused load leave the processor alone, but for the delay timer and the
screen. -/
theorem obey_of_ne_step (m : Machine) {c : Command} (hstep : c ≠ .step) (hc : ¬c.Renews) :
    (m.obey c).machine.random = m.random ∧
      ∃ delay screen, (m.obey c).machine.state = { m.state with delay, screen } := by
  cases c with
  | load program =>
      rw [obey, load_of_lt (Nat.lt_of_not_le hc)]
      exact ⟨rfl, m.state.delay, m.state.screen, rfl⟩
  | reset => exact absurd trivial hc
  | step => exact absurd rfl hstep
  | tick =>
      simp only [obey, tick]
      split
      · exact ⟨rfl, _, _, rfl⟩
      · exact ⟨rfl, _, m.state.screen, rfl⟩
  | press code | release code =>
      simp only [obey, setKey]
      split <;> exact ⟨rfl, m.state.delay, m.state.screen, rfl⟩

theorem obey_mapParts (m : Machine) (q : CallStack → CallStack) (r : Memory → Memory)
    {c : Command} (hstep : c ≠ .step) (hc : ¬c.Restarts) :
    (m.mapParts q r).obey c = (m.obey c).mapParts q r := by
  cases c with
  | load program => exact absurd trivial hc
  | reset => exact absurd trivial hc
  | step => exact absurd rfl hstep
  | tick =>
      have hscreen : (m.mapParts q r).state.screen = m.state.screen := rfl
      simp only [obey, tick, hscreen]
      cases m.state.screen.stale <;> rfl
  | press code | release code =>
      simp only [obey, setKey]
      cases Keypad.key? code <;> rfl

theorem after_related {R : Machine → Machine → Prop}
    (hobey : ∀ {m n}, R m n → ∀ c, R (m.obey c).machine (n.obey c).machine) {m n : Machine}
    (h : R m n) (commands : List Command) : R (m.after commands) (n.after commands) := by
  induction commands generalizing m n with
  | nil => exact h
  | cons c rest ih => exact ih (hobey h c)

/-- Some step of a run starts from a state with a property. -/
def SomeStep (p : State → Prop) (m : Machine) (commands : List Command) : Prop :=
  ∃ first rest, commands = first ++ .step :: rest ∧ p (m.after first).state

theorem not_someStep_nil (p : State → Prop) (m : Machine) : ¬m.SomeStep p [] := by
  rintro ⟨first, rest, heq, _⟩
  simp at heq

theorem someStep_cons (p : State → Prop) (m : Machine) (c : Command) (rest : List Command) :
    m.SomeStep p (c :: rest) ↔
      c = .step ∧ p m.state ∨ (m.obey c).machine.SomeStep p rest := by
  constructor
  · rintro ⟨_ | ⟨d, first⟩, behind, heq, hp⟩
    · obtain ⟨rfl, -⟩ := List.cons.inj heq
      exact Or.inl ⟨rfl, hp⟩
    · obtain ⟨rfl, rfl⟩ := List.cons.inj heq
      exact Or.inr ⟨first, behind, rfl, hp⟩
  · rintro (⟨rfl, hp⟩ | ⟨first, behind, rfl, hp⟩)
    · exact ⟨[], rest, rfl, hp⟩
    · exact ⟨c :: first, behind, rfl, hp⟩

/-- How many steps of a run start from a state with a property. -/
def countSteps (p : State → Prop) [DecidablePred p] (m : Machine) : List Command → Nat
  | [] => 0
  | c :: rest => (if c = .step ∧ p m.state then 1 else 0) + (m.obey c).machine.countSteps p rest

theorem countSteps_pos_iff (p : State → Prop) [DecidablePred p] (m : Machine)
    (commands : List Command) : 0 < m.countSteps p commands ↔ m.SomeStep p commands := by
  induction commands generalizing m with
  | nil => simp [countSteps, not_someStep_nil]
  | cons c rest ih =>
      rw [countSteps, someStep_cons, ← ih, Nat.add_pos_iff_pos_or_pos]
      split <;> simp [*]

instance (p : State → Prop) [DecidablePred p] (m : Machine) (commands : List Command) :
    Decidable (m.SomeStep p commands) :=
  decidable_of_iff _ (countSteps_pos_iff p m commands)

end Machine

end ChipEight
