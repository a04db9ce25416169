import ChipEight.Instruction.Execute

namespace ChipEight

/-!
# What executing an instruction depends on

Only a return and a call can be refused. The screen concerns clearing and drawing only,
the call stack returns and calls, and memory the instructions that load, store or draw:
put before other contents of a part that does not concern it, an instruction does the
same to the rest of the state.
-/

namespace State

def withScreen (s : State) (t : Screen) : State := { s with screen := t }

@[simp] theorem withScreen_screen (s : State) : s.withScreen s.screen = s := rfl

/-- Pass the screen, the call stack and memory through functions. -/
def mapParts (p : Screen → Screen) (q : CallStack → CallStack) (r : Memory → Memory)
    (s : State) : State :=
  { s with screen := p s.screen, calls := q s.calls, memory := r s.memory }

end State

namespace Effect

def withScreen (e : Effect) (t : Screen) : Effect := { e with state := e.state.withScreen t }

def mapParts (p : Screen → Screen) (q : CallStack → CallStack) (r : Memory → Memory)
    (e : Effect) : Effect :=
  { e with state := e.state.mapParts p q r }

end Effect

namespace Instruction

/-- The two instructions that change the screen. -/
def Paints : Instruction → Prop
  | .clear | .draw .. => True
  | _ => False

instance (i : Instruction) : Decidable i.Paints := by
  unfold Paints
  split <;> infer_instance

/-- The two instructions that use the call stack. -/
def Links : Instruction → Prop
  | .ret | .call _ => True
  | _ => False

/-- The instructions that read or write memory. -/
def Accesses : Instruction → Prop
  | .draw .. | .storeDigits _ | .save _ | .restore _ => True
  | _ => False

/-- One instruction takes a byte from the generator. -/
def generatorAfter (random : Generator) : Instruction → Generator
  | .random .. => random.next
  | _ => random

/-- One instruction beeps. -/
def beepIn (s : State) : Instruction → Option UInt8
  | .beep x => some (s.reg x)
  | _ => none

theorem execute_eq_error_iff (i : Instruction) (keys : Keypad) (random : Generator) (s : State)
    (f : Fault) :
    i.execute keys random s = .error f ↔
      i = .ret ∧ s.calls.depth = 0 ∧ f = .stackUnderflow ∨
      (∃ target, i = .call target) ∧ s.calls.depth = 16 ∧ f = .stackOverflow := by
  cases i with
  | ret =>
      have hpop := s.calls.pop?_eq_none_iff
      cases h : s.calls.pop? with
      | none =>
          have hd := hpop.mp h
          simp [execute, h, hd, eq_comm]
      | some p =>
          have hd : s.calls.depth ≠ 0 := fun hz => by simp [hpop.mpr hz] at h
          simp [execute, h, hd]
  | call target =>
      have hpush := s.calls.push?_eq_none_iff s.counter
      cases h : s.calls.push? s.counter with
      | none =>
          have hd := hpush.mp h
          simp [execute, h, hd, eq_comm]
      | some t =>
          have hd : s.calls.depth ≠ 16 := fun hz => by simp [hpush.mpr hz] at h
          simp [execute, h, hd]
  | awaitKey x => cases h : keys.least? <;> simp [execute, h]
  | _ => simp [execute]

theorem execute_mapParts {i : Instruction} {p : Screen → Screen} {q : CallStack → CallStack}
    {r : Memory → Memory} (hp : i.Paints → p = id) (hq : i.Links → q = id)
    (hr : i.Accesses → r = id) (keys : Keypad) (random : Generator) (s : State) :
    i.execute keys random (s.mapParts p q r) =
      (i.execute keys random s).map (Effect.mapParts p q r) := by
  cases i with
  | clear =>
      obtain rfl := hp trivial
      rfl
  | ret =>
      obtain rfl := hq trivial
      cases h : s.calls.pop? with
      | none => simp [execute, State.mapParts, h, Except.map]
      | some back => simp [execute, State.mapParts, Effect.mapParts, h, Except.map]
  | call target =>
      obtain rfl := hq trivial
      cases h : s.calls.push? s.counter with
      | none => simp [execute, State.mapParts, h, Except.map]
      | some calls => simp [execute, State.mapParts, Effect.mapParts, h, Except.map]
  | skipIf c =>
      have hc : c.holds keys (s.mapParts p q r) = c.holds keys s := by cases c <;> rfl
      simp only [execute, hc, Except.map]
      cases c.holds keys s <;> rfl
  | combine f x y => cases f <;> rfl
  | draw x y rows =>
      obtain rfl := hp trivial
      obtain rfl := hr trivial
      rfl
  | awaitKey x => cases h : keys.least? <;> simp only [execute, h, Except.map] <;> rfl
  | storeDigits x | save x | restore x =>
      obtain rfl := hr trivial
      rfl
  | _ => rfl

theorem execute_withScreen {i : Instruction} (hi : ¬i.Paints) (keys : Keypad)
    (random : Generator) (s : State) (t : Screen) :
    i.execute keys random (s.withScreen t) =
      (i.execute keys random s).map fun e => e.withScreen t :=
  execute_mapParts (p := fun _ => t) (fun h => absurd h hi) (fun _ => rfl) (fun _ => rfl)
    keys random s

/-- What an instruction does not use it leaves as it was. -/
theorem mapParts_of_execute {i : Instruction} {p : Screen → Screen} {q : CallStack → CallStack}
    {r : Memory → Memory} (hp : i.Paints → p = id) (hq : i.Links → q = id)
    (hr : i.Accesses → r = id) {keys : Keypad} {random : Generator} {s : State} {e : Effect}
    (hs : s.mapParts p q r = s) (h : i.execute keys random s = .ok e) : e.mapParts p q r = e := by
  have hmap := execute_mapParts hp hq hr keys random s
  rw [hs, h] at hmap
  exact (Except.ok.inj hmap).symm

theorem screen_of_execute {i : Instruction} (hi : ¬i.Paints) {keys : Keypad}
    {random : Generator} {s : State} {e : Effect} (h : i.execute keys random s = .ok e) :
    e.state.screen = s.screen := by
  have he := mapParts_of_execute (p := fun _ => s.screen) (fun hp => absurd hp hi)
    (fun _ => rfl) (fun _ => rfl) rfl h
  rw [← he]
  rfl

theorem memory_of_execute {i : Instruction} (hi : ¬i.Accesses) {keys : Keypad}
    {random : Generator} {s : State} {e : Effect} (h : i.execute keys random s = .ok e) :
    e.state.memory = s.memory := by
  have he := mapParts_of_execute (r := fun _ => s.memory) (fun _ => rfl) (fun _ => rfl)
    (fun ha => absurd ha hi) rfl h
  rw [← he]
  rfl

theorem calls_of_execute {i : Instruction} (hi : ¬i.Links) {keys : Keypad}
    {random : Generator} {s : State} {e : Effect} (h : i.execute keys random s = .ok e) :
    e.state.calls = s.calls := by
  have he := mapParts_of_execute (q := fun _ => s.calls) (fun _ => rfl)
    (fun hl => absurd hl hi) (fun _ => rfl) rfl h
  rw [← he]
  rfl

theorem random_beep_of_execute {i : Instruction} {keys : Keypad} {random : Generator} {s : State}
    {e : Effect} (h : i.execute keys random s = .ok e) :
    e.random = i.generatorAfter random ∧ e.beep = i.beepIn s := by
  cases i with
  | ret | call target =>
      simp only [execute] at h
      split at h <;> cases h
      exact ⟨rfl, rfl⟩
  | awaitKey x =>
      simp only [execute] at h
      split at h <;> cases h <;> exact ⟨rfl, rfl⟩
  | _ =>
      obtain rfl := Except.ok.inj h
      exact ⟨rfl, rfl⟩

theorem random_of_execute {i : Instruction} (hi : ∀ x mask, i ≠ .random x mask) {keys : Keypad}
    {random : Generator} {s : State} {e : Effect} (h : i.execute keys random s = .ok e) :
    e.random = random := by
  rw [(random_beep_of_execute h).1, generatorAfter]
  exact hi

end Instruction

end ChipEight
