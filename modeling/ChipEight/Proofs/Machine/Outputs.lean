import ChipEight.Machine

namespace ChipEight

/-!
# What a command lets out

The records, beeps and frames of a reply, each in order, and the random bytes that a
command draws. A step is taken apart once, into the three ways it can go.
-/

namespace Output

def record? : Output → Option Log.Record
  | record r => some r
  | _ => none

def beep? : Output → Option UInt8
  | beep duration => some duration
  | _ => none

def frame? : Output → Option Grid
  | frame pixels => some pixels
  | _ => none

end Output

namespace Reply

def records (r : Reply) : List Log.Record := r.output.filterMap Output.record?

def beeps (r : Reply) : List UInt8 := r.output.filterMap Output.beep?

def frames (r : Reply) : List Grid := r.output.filterMap Output.frame?

def warnings (r : Reply) : List Log.Record := r.records.filter fun x => x.level = .warn

end Reply

namespace Effect

@[simp] theorem filterMap_frame?_output (e : Effect) : e.output.filterMap Output.frame? = [] := by
  rcases e with ⟨s, g, _ | d, _ | x⟩ <;> rfl

@[simp] theorem filterMap_beep?_output (e : Effect) :
    e.output.filterMap Output.beep? = e.beep.toList := by
  rcases e with ⟨s, g, _ | d, _ | x⟩ <;> rfl

end Effect

namespace Generator

/-- The bytes of a stream from one position up to a later one. -/
def bytesUntil (g h : Generator) : List UInt8 :=
  (List.range (h.drawn - g.drawn)).map fun k => Random.byteAt g.key (g.drawn + k)

@[simp] theorem bytesUntil_self (g : Generator) : g.bytesUntil g = [] := by
  simp [bytesUntil]

end Generator

namespace Machine

def drawnBy (m : Machine) (c : Command) : List UInt8 :=
  m.random.bytesUntil (m.obey c).machine.random

/-- A word that is no instruction, an instruction that is refused, or one that is executed. -/
theorem step_cases (m : Machine) :
    Instruction.ofWord? m.state.fetch = none ∧ m.step = m.reject ∨
    (∃ i f, Instruction.ofWord? m.state.fetch = some i ∧
      i.execute m.keys m.random m.past.state = .error f ∧
      m.step = ⟨m.past, [m.fetched], .error f⟩) ∨
    ∃ i e, Instruction.ofWord? m.state.fetch = some i ∧
      i.execute m.keys m.random m.past.state = .ok e ∧
      m.step =
        ⟨{ m with state := e.state, random := e.random }, m.fetched :: e.output, .ok ()⟩ := by
  cases hi : Instruction.ofWord? m.state.fetch with
  | none => exact Or.inl ⟨rfl, step_of_none hi⟩
  | some i =>
      right
      cases he : i.execute m.keys m.random m.past.state with
      | error f => exact Or.inl ⟨i, f, rfl, he, (step_of_some hi).trans (perform_of_error he)⟩
      | ok e => exact Or.inr ⟨i, e, rfl, he, (step_of_some hi).trans (perform_of_ok he)⟩

@[simp] theorem frames_step (m : Machine) : m.step.frames = [] := by
  rcases m.step_cases with ⟨_, h⟩ | ⟨i, f, _, _, h⟩ | ⟨i, e, _, _, h⟩
  · rw [h]
    rfl
  · rw [h]
    rfl
  · rw [h]
    exact e.filterMap_frame?_output

theorem frames_obey_of_ne_tick (m : Machine) {c : Command} (hc : c ≠ .tick) :
    (m.obey c).frames = [] := by
  cases c with
  | load program =>
      simp only [obey, load]
      split <;> rfl
  | reset => rfl
  | step => exact m.frames_step
  | tick => exact absurd rfl hc
  | press code | release code =>
      simp only [obey, setKey]
      split <;> rfl

theorem replies_append (m : Machine) (first rest : List Command) :
    m.replies (first ++ rest) = m.replies first ++ (m.after first).replies rest := by
  induction first generalizing m with
  | nil => rfl
  | cons c first ih => simp only [List.cons_append, replies, ih, after_cons]

def shownBy (m : Machine) (commands : List Command) : List Grid :=
  (m.replies commands).flatMap Reply.frames

theorem shownBy_append_singleton (m : Machine) (commands : List Command) (c : Command) :
    m.shownBy (commands ++ [c]) = m.shownBy commands ++ ((m.after commands).obey c).frames := by
  simp [shownBy, replies_append, replies]

theorem after_append_singleton (m : Machine) (commands : List Command) (c : Command) :
    m.after (commands ++ [c]) = ((m.after commands).obey c).machine := by
  rw [after_append]
  rfl

theorem frames_tick (m : Machine) :
    m.tick.frames = if m.state.screen.stale then [m.state.screen.visible] else [] := by
  unfold tick
  split <;> rfl

end Machine

end ChipEight
