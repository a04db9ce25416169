import ChipEight.Proofs.Machine.Keys

namespace ChipEight

/-!
# Waiting for a key

A machine that waits for a key while none is held does not move: steps, releases and refused key
events leave it as it is, and ticks only run the timer down and hand the screen out. The step
behind the first press takes the least held key and goes on.
-/

/-- The commands that do not hold a key or put the machine back. -/
def Command.Idles : Command → Prop
  | .step | .tick | .release _ => True
  | .press code => 16 ≤ code.toNat
  | .load _ | .reset => False

namespace State

/-- A state that nothing but a number of ticks has changed. -/
def idled (s : State) (ticks : Nat) : State :=
  { s with
    delay := UInt8.ofNat (s.delay.toNat - ticks)
    screen := { s.screen with stale := s.screen.stale && ticks == 0 } }

@[simp] theorem idled_zero (s : State) : s.idled 0 = s := by
  simp [idled]

theorem idled_idled (s : State) (first second : Nat) :
    (s.idled first).idled second = s.idled (first + second) := by
  have hlt := s.delay.toNat_lt
  have hdelay : (UInt8.ofNat (s.delay.toNat - first)).toNat = s.delay.toNat - first := by
    rw [UInt8.toNat_ofNat']
    omega
  have hstale : (first + second == 0) = (first == 0 && second == 0) := by
    rw [Bool.eq_iff_iff]
    simp
  simp only [idled, hdelay, hstale, Nat.sub_sub, Bool.and_assoc]

theorem countDown_eq (s : State) :
    s.countDown = { s with delay := UInt8.ofNat (s.delay.toNat - 1) } := by
  have hdelay : (if s.delay = 0 then 0 else s.delay - 1) = UInt8.ofNat (s.delay.toNat - 1) := by
    apply UInt8.toNat_inj.mp
    have hlt := s.delay.toNat_lt
    split
    · simp [*]
    · have hpos : s.delay.toNat ≠ 0 := fun hz => ‹s.delay ≠ 0› (UInt8.toNat_inj.mp hz)
      have hle : (1 : UInt8) ≤ s.delay := UInt8.le_iff_toNat_le.mpr (Nat.pos_of_ne_zero hpos)
      rw [UInt8.toNat_sub_of_le _ _ hle, UInt8.toNat_ofNat']
      simp only [UInt8.toNat_one]
      omega
  rw [countDown, hdelay]

end State

namespace Machine

/-- A machine that nothing but a number of ticks has changed. -/
def idled (m : Machine) (ticks : Nat) : Machine := { m with state := m.state.idled ticks }

@[simp] theorem idled_zero (m : Machine) : m.idled 0 = m := by
  rw [idled, State.idled_zero]

theorem idled_idled (m : Machine) (first second : Nat) :
    (m.idled first).idled second = m.idled (first + second) := by
  rw [idled, idled, State.idled_idled]
  rfl

theorem machine_tick (m : Machine) : m.tick.machine = m.idled 1 := by
  unfold tick
  cases hstale : m.state.screen.stale with
  | true => simp [State.countDown_eq, State.shown, Screen.shown, idled, State.idled]
  | false =>
      have hscreen : { m.state.screen with stale := false } = m.state.screen := by rw [← hstale]
      simp [State.countDown_eq, idled, State.idled, hstale, hscreen]

theorem setKey_false_of_free {m : Machine} (hfree : ∀ k, m.keys.isHeld k = false) (code : UInt8) :
    (m.setKey code false).machine = m := by
  have hkeys : ∀ k, m.keys.set k false = m.keys := by
    intro k
    apply Keypad.ext
    intro l
    rw [Keypad.isHeld_set, hfree l, ite_self]
  unfold setKey
  split
  · rw [hkeys]
  · rfl

/-- The next word asks for a key and no key is held. -/
structure Waits (m : Machine) : Prop where
  word : m.state.fetch.AwaitsKey
  free : ∀ k, m.keys.isHeld k = false

namespace Waits

variable {m : Machine}

theorem idled (h : m.Waits) (ticks : Nat) : (m.idled ticks).Waits where
  word := h.word
  free := h.free

theorem machine_obey (h : m.Waits) {c : Command} (hc : c.Idles) :
    (m.obey c).machine = m.idled (if c = .tick then 1 else 0) := by
  cases c with
  | load program => exact hc.elim
  | reset => exact hc.elim
  | step =>
      rw [obey, step_of_awaitsKey_of_free h.word h.free]
      exact m.idled_zero.symm
  | tick => exact m.machine_tick
  | press code =>
      rw [obey, setKey_of_le hc]
      exact m.idled_zero.symm
  | release code =>
      rw [obey, setKey_false_of_free h.free]
      exact m.idled_zero.symm

theorem beeps_obey (h : m.Waits) {c : Command} (hc : c.Idles) : (m.obey c).beeps = [] := by
  cases c with
  | load program => exact hc.elim
  | reset => exact hc.elim
  | step =>
      rw [obey, step_of_awaitsKey_of_free h.word h.free]
      rfl
  | tick =>
      rw [obey, tick]
      split <;> rfl
  | press code | release code =>
      rw [obey, setKey]
      split <;> rfl

theorem after (h : m.Waits) {commands : List Command} (hc : ∀ c ∈ commands, c.Idles) :
    m.after commands = m.idled (commands.count .tick) := by
  induction commands generalizing m with
  | nil => exact m.idled_zero.symm
  | cons c rest ih =>
      have hnext := h.machine_obey (hc c (List.mem_cons_self ..))
      have hrest := ih (h.idled (if c = .tick then 1 else 0)) fun d hd =>
        hc d (List.mem_cons_of_mem c hd)
      rw [after_cons, hnext, hrest, idled_idled, List.count_cons]
      simp [Nat.add_comm]

/-- Behind presses of some keys, the least of them ends the waiting. -/
theorem step_after_presses (h : m.Waits) {pressed : List Key} (hsome : pressed ≠ []) :
    let woken := m.after (pressed.map fun k => .press (UInt8.ofNat k.val))
    ∃ least ∈ pressed, (∀ k ∈ pressed, least ≤ k) ∧
      woken.step = ⟨{ m with
        keys := woken.keys
        state := m.past.state.setReg m.state.fetch.x (UInt8.ofNat least.val) },
          [m.fetched], .ok ()⟩ := by
  intro woken
  have hwoken : woken = _ := m.after_map_press pressed
  have hheld : ∀ k, woken.keys.isHeld k = true ↔ k ∈ pressed := by
    intro k
    rw [hwoken, Keypad.isHeld_foldl_set]
    simp [h.free k]
  have hword : woken.state.fetch.AwaitsKey := by
    rw [hwoken]
    exact h.word
  obtain ⟨k, hk⟩ := List.exists_mem_of_ne_nil pressed hsome
  obtain ⟨least, hleast, hstep⟩ := step_of_awaitsKey_of_isHeld hword ((hheld k).mpr hk)
  refine ⟨least, (hheld least).mp hleast.1, fun l hl => hleast.2 l ((hheld l).mpr hl), ?_⟩
  rw [hstep, hwoken]
  rfl

end Waits

/-- As long as no key is pressed, a machine that waits for one stays as it is, but for the delay
timer, which the ticks run down, and for whether the screen has been handed out: every step is
obeyed, no random number is drawn and nothing is heard. Once some keys are pressed, the next step
puts the least of them into its register, goes on behind the word and changes nothing else. -/
theorem waiting_ends_with_press {m : Machine} (h : m.Waits) {commands : List Command}
    (hc : ∀ c ∈ commands, c.Idles) :
    let now := m.after commands
    let ticks := commands.count .tick
    now = { m with state := { m.state with
      delay := UInt8.ofNat (m.state.delay.toNat - ticks)
      screen := { m.state.screen with stale := m.state.screen.stale && ticks == 0 } } } ∧
    (∀ before c rest, commands = before ++ c :: rest →
      ((m.after before).obey c).beeps = [] ∧ (m.after before).drawnBy c = [] ∧
      (c = .step → ((m.after before).obey c).result = .ok ())) ∧
    ∀ pressed : List Key, pressed ≠ [] →
      let woken := now.after (pressed.map fun k => .press (UInt8.ofNat k.val))
      ∃ least ∈ pressed, (∀ k ∈ pressed, least ≤ k) ∧
        woken.step.result = .ok () ∧ woken.step.beeps = [] ∧
        woken.step.machine = { now with
          keys := woken.keys
          state := { now.state with counter := m.state.counter + 2 }.setReg m.state.fetch.x
            (UInt8.ofNat least.val) } := by
  intro now ticks
  have hnow : now = m.idled ticks := h.after hc
  refine ⟨hnow, ?_, ?_⟩
  · rintro before c rest rfl
    have hbefore : (m.after before).Waits := by
      rw [h.after fun d hd => hc d (List.mem_append_left _ hd)]
      exact h.idled _
    have hidles : c.Idles := hc c (by simp)
    refine ⟨hbefore.beeps_obey hidles, ?_, ?_⟩
    · rw [drawnBy, hbefore.machine_obey hidles]
      exact Generator.bytesUntil_self _
    · rintro rfl
      rw [obey, step_of_awaitsKey_of_free hbefore.word hbefore.free]
  · intro pressed hsome woken
    have hwaits : now.Waits := hnow ▸ h.idled ticks
    obtain ⟨least, hmem, hle, hstep⟩ := hwaits.step_after_presses hsome
    refine ⟨least, hmem, hle, ?_, ?_, ?_⟩
    · rw [hstep]
    · rw [hstep]
      rfl
    · have hcounter : now.state.counter = m.state.counter := by
        rw [hnow]
        rfl
      have hfetch : now.state.fetch = m.state.fetch := by
        rw [hnow]
        rfl
      rw [hstep, ← hcounter, ← hfetch]
      rfl

/-- At the last address, where the second half of the word is the first cell of memory; the timer
stops at zero. -/
theorem waiting_ends_with_press_of_last_address :
    let memory := (Memory.blank.write 0xFFFF 0xF4).write 0x0000 0x0A
    let m : Machine := { powerOn ⟨Vector.replicate 8 0, 0⟩ with
      state := { State.powerOn with counter := 0xFFFF, memory, delay := 1 } }
    let commands : List Command := [.step, .tick, .release 3, .press 0x20, .tick, .tick, .step]
    let woken := (m.after commands).after ([9, 6].map fun k : Key => .press (UInt8.ofNat k.val))
    m.Waits ∧ (∀ c ∈ commands, c.Idles) ∧
      (m.after commands).state = { m.state with delay := 0, screen := m.state.screen.shown } ∧
      woken.step.machine.state.counter = 0x0001 ∧ woken.step.machine.state.reg 4 = 6 := by
  intro memory m commands woken
  have hwaits : m.Waits := by
    constructor
    · decide +kernel
    · exact Keypad.isHeld_free
  have hc : ∀ c ∈ commands, c.Idles := by
    simp [commands, Command.Idles]
  obtain ⟨hnow, -, hwoken⟩ := waiting_ends_with_press hwaits hc
  obtain ⟨least, hmem, hle, -, -, hstep⟩ := hwoken [9, 6] (by decide)
  refine ⟨hwaits, hc, ?_, ?_, ?_⟩
  · rw [hnow]
    rfl
  · rw [hstep]
    change m.state.counter + 2 = 0x0001
    decide
  · have hsix : least = 6 := by
      have hsmall := hle 6 (by decide)
      simp only [List.mem_cons, List.not_mem_nil, or_false] at hmem
      rcases hmem with rfl | rfl
      · exact absurd hsmall (by decide)
      · rfl
    have hx : m.state.fetch.x = 4 := by decide +kernel
    rw [hstep, hx, State.reg_setReg_self, hsix]
    rfl

end Machine

end ChipEight
