import ChipEight.Proofs.Instruction.Table
import ChipEight.Proofs.Machine.Commands

namespace ChipEight

/-!
# Ticks that a program does not ask about

A tick counts the delay timer down and hands the screen out. Only one instruction reads
the timer, and none looks at whether the screen has been handed out, so a program that
never reads the timer gives the same answers however the ticks fall between its steps.
-/

namespace State

/-- A state without what ticks are there for: the timer stopped, the screen handed out. -/
def untimed (s : State) : State := { s with delay := 0, screen := s.screen.shown }

theorem holds_untimed (s : State) (keys : Keypad) (c : Condition) :
    c.holds keys s.untimed = c.holds keys s := by
  cases c <;> rfl

end State

namespace Effect

def untimed (e : Effect) : Effect := { e with state := e.state.untimed }

end Effect

namespace Instruction

/-- An instruction that does not read the timer does the same without it. -/
theorem execute_untimed {i : Instruction} (hi : ∀ x, i ≠ .readDelay x) (keys : Keypad)
    (random : Generator) (s : State) :
    (i.execute keys random s.untimed).map Effect.untimed =
      (i.execute keys random s).map Effect.untimed := by
  have hcalls : s.untimed.calls = s.calls := rfl
  have hcounter : s.untimed.counter = s.counter := rfl
  cases i with
  | readDelay x => exact absurd rfl (hi x)
  | ret =>
      simp only [execute, hcalls]
      cases s.calls.pop? <;> rfl
  | call target =>
      simp only [execute, hcalls, hcounter]
      cases s.calls.push? s.counter <;> rfl
  | skipIf c =>
      simp only [execute, s.holds_untimed]
      cases c.holds keys s <;> rfl
  | combine f x y => cases f <;> rfl
  | awaitKey x =>
      simp only [execute]
      cases keys.least? <;> rfl
  | _ => rfl

end Instruction

namespace Machine

def untimed (m : Machine) : Machine := { m with state := m.state.untimed }

end Machine

namespace Reply

def untimed (r : Reply) : Reply := { r with machine := r.machine.untimed }

end Reply

namespace Machine

theorem perform_untimed (m : Machine) {i : Instruction} (hi : ∀ x, i ≠ .readDelay x) :
    (m.untimed.perform i).untimed = (m.perform i).untimed := by
  have hexec := Instruction.execute_untimed hi m.keys m.random m.past.state
  have hpast : m.untimed.past.state = m.past.state.untimed := rfl
  have hkeys : m.untimed.keys = m.keys := rfl
  have hrandom : m.untimed.random = m.random := rfl
  unfold perform
  rw [hpast, hkeys, hrandom]
  -- Only what the two executions have in common is needed, so they stand for any two.
  generalize i.execute m.keys m.random m.past.state = p at hexec ⊢
  generalize i.execute m.keys m.random m.past.state.untimed = q at hexec ⊢
  cases p with
  | error f =>
      cases q with
      | error g =>
          cases hexec
          rfl
      | ok e' => cases hexec
  | ok e =>
      cases q with
      | error g => cases hexec
      | ok e' =>
          have heffect : e'.untimed = e.untimed := Except.ok.inj hexec
          exact congrArg (fun d : Effect =>
            (⟨⟨d.state, m.keys, d.random⟩, m.fetched :: d.output, .ok ()⟩ : Reply)) heffect

theorem step_untimed (m : Machine) (h : ¬m.state.fetch.ReadsDelay) :
    m.untimed.step.untimed = m.step.untimed := by
  have hfetch : m.untimed.state.fetch = m.state.fetch := rfl
  cases hi : Instruction.ofWord? m.state.fetch with
  | none =>
      rw [step_of_none hi, step_of_none (hfetch ▸ hi)]
      rfl
  | some i =>
      rw [step_of_some hi, step_of_some (hfetch ▸ hi)]
      apply perform_untimed
      rintro x rfl
      obtain ⟨hg, hnn, -⟩ := Instruction.encodes_of_ofWord? hi
      exact h ⟨hg, hnn⟩

theorem step_of_readsDelay {m : Machine} (h : m.state.fetch.ReadsDelay) :
    m.step = ⟨{ m with state := m.past.state.setReg m.state.fetch.x m.state.delay },
      [m.fetched], .ok ()⟩ := by
  rw [step_of_some h.ofWord?]
  rfl

theorem untimed_tick (m : Machine) : m.tick.machine.untimed = m.untimed := by
  unfold tick
  split <;> rfl

theorem obey_untimed (m : Machine) {c : Command} (hc : c ≠ .tick)
    (h : ¬(c = .step ∧ m.state.fetch.ReadsDelay)) :
    (m.untimed.obey c).untimed = (m.obey c).untimed := by
  cases c with
  | load program =>
      simp only [obey, load]
      split <;> rfl
  | reset => rfl
  | step => exact m.step_untimed fun hw => h ⟨rfl, hw⟩
  | tick => exact absurd rfl hc
  | press code | release code =>
      simp only [obey, setKey]
      split <;> rfl

end Machine

/-- What a command lets be seen apart from frames: how it is answered, the beeps, the records, and
the random bytes it takes. -/
structure Answer where
  result : Except Fault Unit
  beeps : List UInt8
  records : List Log.Record
  drawn : List UInt8

namespace Machine

def answer (m : Machine) (c : Command) : Answer :=
  ⟨(m.obey c).result, (m.obey c).beeps, (m.obey c).records, m.drawnBy c⟩

/-- The answers to the commands of a run other than ticks. -/
def answers (m : Machine) : List Command → List Answer
  | [] => []
  | c :: rest =>
    (if c = .tick then [] else [m.answer c]) ++ (m.obey c).machine.answers rest

section Alike

variable {m n : Machine}

theorem fetch_alike (h : m.untimed = n.untimed) : m.state.fetch = n.state.fetch := by
  have hfetch := congrArg (fun k : Machine => k.state.fetch) h
  exact hfetch

theorem random_alike (h : m.untimed = n.untimed) : m.random = n.random := by
  have hrandom := congrArg (fun k : Machine => k.random) h
  exact hrandom

theorem obey_alike (h : m.untimed = n.untimed) {c : Command} (hc : c ≠ .tick)
    (hblind : ¬(c = .step ∧ m.state.fetch.ReadsDelay)) :
    (m.obey c).untimed = (n.obey c).untimed := by
  have hblind' := fetch_alike h ▸ hblind
  rw [← m.obey_untimed hc hblind, ← n.obey_untimed hc hblind', h]

theorem answer_alike (h : m.untimed = n.untimed) {c : Command} (hc : c ≠ .tick)
    (hblind : ¬(c = .step ∧ m.state.fetch.ReadsDelay)) : m.answer c = n.answer c := by
  have hreply := obey_alike h hc hblind
  have hanswer := congrArg (fun r : Reply =>
    (⟨r.result, r.beeps, r.records, n.random.bytesUntil r.machine.random⟩ : Answer)) hreply
  rw [answer, drawnBy, random_alike h]
  exact hanswer

theorem someStep_filter_iff (h : m.untimed = n.untimed) (commands : List Command) :
    m.SomeStep (fun s => s.fetch.ReadsDelay) commands ↔
      n.SomeStep (fun s => s.fetch.ReadsDelay) (commands.filter (· ≠ .tick)) := by
  induction commands generalizing m n with
  | nil => simp [not_someStep_nil]
  | cons c rest ih =>
      by_cases hc : c = .tick
      · subst hc
        have htick : (m.obey .tick).machine.untimed = n.untimed := m.untimed_tick.trans h
        rw [someStep_cons, ih htick]
        simp
      · rw [List.filter_cons_of_pos (by simpa using hc), someStep_cons, someStep_cons,
          ← fetch_alike h]
        by_cases hreads : c = .step ∧ m.state.fetch.ReadsDelay
        · simp only [hreads, true_and, true_or]
        · rw [ih (congrArg Reply.machine (obey_alike h hc hreads))]

/-- Leaving the ticks out of a run that never reads the timer makes no difference. -/
theorem answers_filter (h : m.untimed = n.untimed) {commands : List Command}
    (hblind : ¬m.SomeStep (fun s => s.fetch.ReadsDelay) commands) :
    m.answers commands = n.answers (commands.filter (· ≠ .tick)) ∧
      (m.after commands).untimed = (n.after (commands.filter (· ≠ .tick))).untimed := by
  -- The runs are alike up to `untimed` throughout, which the ticks of the first do not change.
  induction commands generalizing m n with
  | nil => exact ⟨rfl, h⟩
  | cons c rest ih =>
      rw [someStep_cons, not_or] at hblind
      by_cases hc : c = .tick
      · subst hc
        have htick : (m.obey .tick).machine.untimed = n.untimed := m.untimed_tick.trans h
        obtain ⟨hanswers, hafter⟩ := ih htick hblind.2
        exact ⟨hanswers, hafter⟩
      · have hnext := congrArg Reply.machine (obey_alike h hc hblind.1)
        obtain ⟨hanswers, hafter⟩ := ih hnext hblind.2
        rw [List.filter_cons_of_pos (by simpa using hc), after_cons, after_cons]
        refine ⟨?_, hafter⟩
        rw [answers, answers, if_neg hc, if_neg hc, answer_alike h hc hblind.1, hanswers]

end Alike

/-- Two runs of a machine that differ in their ticks only, and of which one never reads the timer,
give the same answers to all other commands and end in machines that are equal up to the timer
and whether the screen has been handed out. -/
theorem ticks_tell_nothing {m : Machine} {first second : List Command}
    (hsame : first.filter (· ≠ .tick) = second.filter (· ≠ .tick))
    (hblind : ¬m.SomeStep (fun s => s.fetch.ReadsDelay) first) :
    m.answers first = m.answers second ∧
      (m.after first).untimed = (m.after second).untimed := by
  have hblind' : ¬m.SomeStep (fun s => s.fetch.ReadsDelay) second := by
    rwa [someStep_filter_iff rfl, ← hsame, ← someStep_filter_iff rfl]
  obtain ⟨hanswers, hafter⟩ := answers_filter (m := m) rfl hblind
  obtain ⟨hanswers', hafter'⟩ := answers_filter (m := m) rfl hblind'
  rw [hanswers, hanswers', hafter, hafter', hsame]
  exact ⟨rfl, rfl⟩

/-- The ticks are not for nothing here: the timer has come to different values. -/
theorem ticks_tell_nothing_of_timer_set :
    let m := powerOn ⟨Vector.replicate 8 0, 0⟩
    let program : List UInt8 := [0x60, 0x05, 0xF0, 0x15, 0xD0, 0x05, 0xC1, 0xFF]
    let first := [.load program, .step, .tick, .step, .tick, .tick, .step, .press 0x3, .step, .tick]
    let second := [.tick, .load program, .step, .step, .step, .tick, .press 0x3, .step]
    first.filter (· ≠ .tick) = second.filter (· ≠ .tick) ∧
      ¬m.SomeStep (fun s => s.fetch.ReadsDelay) first ∧
      (m.after first).state.delay ≠ (m.after second).state.delay ∧
      m.answers first = m.answers second ∧
      (m.after first).untimed = (m.after second).untimed := by
  intro m program first second
  have hsame : first.filter (· ≠ .tick) = second.filter (· ≠ .tick) := by decide
  have hblind : ¬m.SomeStep (fun s => s.fetch.ReadsDelay) first := by decide +kernel
  have hdelay : (m.after first).state.delay ≠ (m.after second).state.delay := by decide +kernel
  have halike := ticks_tell_nothing (m := m) hsame hblind
  exact ⟨hsame, hblind, hdelay, halike.1, halike.2⟩

end Machine

end ChipEight
