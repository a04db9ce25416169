import Mathlib.Data.List.Induction
import ChipEight.Proofs.Instruction.Table
import ChipEight.Proofs.Machine.Commands

namespace ChipEight

/-!
# Keys

A key is held from a press of it to the next release of it, whatever else a machine is told
in between, and codes that are no keys are refused. What the three instructions that look at
the keypad do is said in terms of the held keys. Events of different keys do not depend on
each other, so between two steps their order does not matter.
-/

namespace Keypad

theorem key?_eq_some_iff (code : UInt8) (k : Key) :
    key? code = some k ↔ code = UInt8.ofNat k.val := by
  constructor
  · intro h
    unfold key? at h
    split at h
    · cases h
      exact (UInt8.ofNat_toNat ..).symm
    · cases h
  · rintro rfl
    exact key?_ofNat k

theorem key?_eq_none_iff (code : UInt8) : key? code = none ↔ 16 ≤ code.toNat := by
  unfold key?
  split <;> simp <;> omega

/-- A code is held if it is that of a held key; one that is no key never is. -/
def Holds (p : Keypad) (code : UInt8) : Prop :=
  ∃ k : Key, code.toNat = k.val ∧ p.isHeld k = true

theorem not_holds_of_le {code : UInt8} (h : 16 ≤ code.toNat) (p : Keypad) : ¬p.Holds code := by
  rintro ⟨k, hk, _⟩
  have hlt := k.isLt
  omega

theorem holdsCode_iff (p : Keypad) (code : UInt8) : p.holdsCode code = true ↔ p.Holds code := by
  unfold holdsCode Holds key?
  by_cases h : code.toNat < 16
  · rw [dif_pos h]
    constructor
    · intro hheld
      exact ⟨⟨code.toNat, h⟩, rfl, hheld⟩
    · rintro ⟨k, hk, hheld⟩
      obtain rfl : (⟨code.toNat, h⟩ : Key) = k := Fin.ext hk
      exact hheld
  · have hnone := p.not_holds_of_le (Nat.le_of_not_lt h)
    simpa [h, Holds] using hnone

/-- The key that is taken when several are held. -/
def IsLeastHeld (p : Keypad) (k : Key) : Prop :=
  p.isHeld k = true ∧ ∀ l : Key, p.isHeld l = true → k ≤ l

theorem least?_eq_some_iff (p : Keypad) (k : Key) : p.least? = some k ↔ p.IsLeastHeld k := by
  unfold least? IsLeastHeld
  rw [List.find?_eq_some_iff_getElem]
  simp only [List.getElem_finRange, List.length_finRange, Bool.not_eq_true']
  constructor
  · rintro ⟨hk, i, hi, rfl, hbefore⟩
    refine ⟨hk, ?_⟩
    intro l hl
    by_contra hlt
    have hfree := hbefore l.val (Nat.not_le.mp hlt)
    exact absurd (hfree.symm.trans hl) Bool.false_ne_true
  · rintro ⟨hk, hleast⟩
    refine ⟨hk, k.val, k.isLt, rfl, ?_⟩
    intro j hj
    by_contra hheld
    have hle := hleast ⟨j, hj.trans k.isLt⟩ (by simpa using hheld)
    exact absurd hj (Nat.not_lt.mpr hle)

theorem isHeld_foldl_set (keys : List Key) (p : Keypad) (l : Key) :
    (keys.foldl (fun q k => q.set k true) p).isHeld l = true ↔ l ∈ keys ∨ p.isHeld l = true := by
  induction keys generalizing p with
  | nil => simp
  | cons k rest ih =>
      rw [List.foldl_cons, ih, isHeld_set, List.mem_cons]
      by_cases hkl : k = l
      · simp [hkl]
      · simp [hkl, Ne.symm hkl]

end Keypad

namespace Command

/-- The presses and releases of a code. -/
def Concerns (code : UInt8) : Command → Prop
  | .press other | .release other => other = code
  | _ => False

instance (code : UInt8) (c : Command) : Decidable (c.Concerns code) := by
  unfold Concerns
  split <;> infer_instance

/-- The presses and releases of whatever code. -/
def OfKeys : Command → Prop
  | .press _ | .release _ => True
  | _ => False

instance (c : Command) : Decidable c.OfKeys := by
  unfold OfKeys
  split <;> infer_instance

theorem Concerns.ofKeys {code : UInt8} {c : Command} (h : c.Concerns code) : c.OfKeys := by
  cases c with
  | press other | release other => exact trivial
  | _ => exact h

/-- Two lists of commands that differ in how the events of different keys, and the commands that
are none, lie between each other. -/
structure SameOrders (first second : List Command) : Prop where
  keys : ∀ code, first.filter (·.Concerns code) = second.filter (·.Concerns code)
  others : first.filter (¬·.OfKeys) = second.filter (¬·.OfKeys)

/-- A press of a code that no release of it has followed. -/
def PressStands (code : UInt8) (commands : List Command) : Prop :=
  ∃ before later, commands = before ++ .press code :: later ∧ .release code ∉ later

theorem pressStands_append_singleton (code : UInt8) (commands : List Command) (c : Command) :
    PressStands code (commands ++ [c]) ↔
      c = .press code ∨ c ≠ .release code ∧ PressStands code commands := by
  constructor
  · rintro ⟨before, later, heq, hnone⟩
    rcases split_append_singleton heq with ⟨-, hc, -⟩ | ⟨later, rfl, rfl⟩
    · exact Or.inl hc.symm
    · simp only [List.mem_append, List.mem_singleton, not_or] at hnone
      exact Or.inr ⟨Ne.symm hnone.2, before, later, rfl, hnone.1⟩
  · rintro (rfl | ⟨hc, before, later, rfl, hnone⟩)
    · exact ⟨commands, [], rfl, List.not_mem_nil⟩
    · refine ⟨before, later ++ [c], by simp, ?_⟩
      simp [hnone, Ne.symm hc]

end Command

namespace Machine

theorem setKey_of_lt {code : UInt8} (h : code.toNat < 16) (down : Bool) (m : Machine) :
    m.setKey code down = ⟨{ m with keys := m.keys.set ⟨code.toNat, h⟩ down }, [], .ok ()⟩ := by
  simp only [setKey, Keypad.key?, dif_pos h]

theorem setKey_of_le {code : UInt8} (h : 16 ≤ code.toNat) (down : Bool) (m : Machine) :
    m.setKey code down = ⟨m, [], .error (.invalidKey code)⟩ := by
  simp only [setKey, (Keypad.key?_eq_none_iff code).mpr h]

theorem after_map_press (m : Machine) (keys : List Key) :
    m.after (keys.map fun k => .press (UInt8.ofNat k.val)) =
      { m with keys := keys.foldl (fun q k => q.set k true) m.keys } := by
  induction keys generalizing m with
  | nil => rfl
  | cons k rest ih =>
      have hpress : (m.obey (.press (UInt8.ofNat k.val))).machine =
          { m with keys := m.keys.set k true } := by
        simp only [obey, setKey, Keypad.key?_ofNat]
      rw [List.map_cons, after_cons, ih, hpress]
      rfl

theorem keys_obey_of_not_ofKeys (m : Machine) {c : Command} (hc : ¬c.OfKeys) :
    (m.obey c).machine.keys = m.keys := by
  cases c with
  | load program =>
      simp only [obey, load]
      split <;> rfl
  | reset => rfl
  | step =>
      rcases m.step_cases with ⟨_, h⟩ | ⟨i, f, _, _, h⟩ | ⟨i, e, _, _, h⟩ <;> rw [obey, h] <;> rfl
  | tick =>
      simp only [obey, tick]
      split <;> rfl
  | press code | release code => exact absurd trivial hc

theorem isHeld_setKey (m : Machine) (code : UInt8) (down : Bool) (k : Key) :
    (m.setKey code down).machine.keys.isHeld k =
      if code = UInt8.ofNat k.val then down else m.keys.isHeld k := by
  unfold setKey
  cases hcode : Keypad.key? code with
  | none =>
      have hne : code ≠ UInt8.ofNat k.val := by
        rintro rfl
        rw [Keypad.key?_ofNat] at hcode
        cases hcode
      rw [if_neg hne]
  | some l =>
      obtain rfl := (Keypad.key?_eq_some_iff code l).mp hcode
      have hiff : UInt8.ofNat l.val = UInt8.ofNat k.val ↔ l = k := by
        rw [← Keypad.key?_eq_some_iff, Keypad.key?_ofNat, Option.some_inj]
      simp only [Keypad.isHeld_set, hiff]

theorem isHeld_obey (m : Machine) (c : Command) (k : Key) :
    (m.obey c).machine.keys.isHeld k =
      if c.Concerns (UInt8.ofNat k.val) then decide (c = .press (UInt8.ofNat k.val))
      else m.keys.isHeld k := by
  by_cases hc : c.OfKeys
  · cases c with
    | press code | release code =>
        rw [obey, isHeld_setKey]
        simp [Command.Concerns]
    | _ => exact hc.elim
  · rw [keys_obey_of_not_ofKeys m hc, if_neg (mt Command.Concerns.ofKeys hc)]

/-- Whether a key is held depends on the last event of that key alone. -/
theorem isHeld_after (m : Machine) (commands : List Command) (k : Key) :
    (m.after commands).keys.isHeld k =
      (commands.filter (·.Concerns (UInt8.ofNat k.val))).foldl
        (fun _ c => decide (c = .press (UInt8.ofNat k.val))) (m.keys.isHeld k) := by
  induction commands generalizing m with
  | nil => rfl
  | cons c rest ih =>
      rw [after_cons, ih, isHeld_obey, List.filter_cons]
      split <;> simp [*]

theorem isHeld_after_powerOn_iff (random : Generator) (commands : List Command) (k : Key) :
    ((powerOn random).after commands).keys.isHeld k = true ↔
      Command.PressStands (UInt8.ofNat k.val) commands := by
  induction commands using List.reverseRecOn with
  | nil => simp [powerOn, Command.PressStands]
  | append_singleton commands c ih =>
      rw [after_append_singleton, isHeld_obey, Command.pressStands_append_singleton, ← ih]
      by_cases hc : c.Concerns (UInt8.ofNat k.val)
      · -- the last command is a press or a release of this key
        cases c with
        | press code =>
            obtain rfl : code = UInt8.ofNat k.val := hc
            simp [Command.Concerns]
        | release code =>
            obtain rfl : code = UInt8.ofNat k.val := hc
            simp [Command.Concerns]
        | _ => exact hc.elim
      · have hpress : c ≠ .press (UInt8.ofNat k.val) := by
          rintro rfl
          exact hc rfl
        have hrelease : c ≠ .release (UInt8.ofNat k.val) := by
          rintro rfl
          exact hc rfl
        simp [hc, hpress, hrelease]

section Steps

variable {m : Machine}

/-- A machine with its program counter at another address. -/
def goTo (m : Machine) (counter : UInt16) : Machine :=
  { m with state := { m.state with counter } }

theorem past_advanceIf (m : Machine) (c : Bool) :
    { m with state := m.past.state.advanceIf c } =
      m.goTo (m.state.counter + if c then 4 else 2) := by
  cases c with
  | false => rfl
  | true =>
      have hfour : m.state.counter + 2 + 2 = m.state.counter + 4 := UInt16.add_assoc _ 2 2
      simp only [State.advanceIf, State.advance, past, goTo, if_true, hfour]

theorem step_of_skipIf {c : Condition}
    (hi : Instruction.ofWord? m.state.fetch = some (.skipIf c)) :
    m.step = ⟨m.goTo (m.state.counter + if c.holds m.keys m.state then 4 else 2),
      [m.fetched], .ok ()⟩ := by
  have hpast : c.holds m.keys m.past.state = c.holds m.keys m.state := by cases c <;> rfl
  rw [step_of_some hi, ← past_advanceIf, ← hpast]
  rfl

theorem step_of_testsHeld (hw : m.state.fetch.TestsHeld) :
    m.step = ⟨m.goTo (m.state.counter +
      if m.keys.holdsCode (m.state.reg m.state.fetch.x) then 4 else 2), [m.fetched], .ok ()⟩ := by
  rw [step_of_skipIf hw.ofWord?]
  rfl

theorem step_of_testsFree (hw : m.state.fetch.TestsFree) :
    m.step = ⟨m.goTo (m.state.counter +
      if !m.keys.holdsCode (m.state.reg m.state.fetch.x) then 4 else 2), [m.fetched], .ok ()⟩ := by
  rw [step_of_skipIf hw.ofWord?]
  rfl

theorem step_of_awaitsKey_of_isHeld (hw : m.state.fetch.AwaitsKey) {l : Key}
    (hl : m.keys.isHeld l = true) :
    ∃ k, m.keys.IsLeastHeld k ∧
      m.step =
        ⟨{ m with state := m.past.state.setReg m.state.fetch.x (UInt8.ofNat k.val) },
          [m.fetched], .ok ()⟩ := by
  cases hleast : m.keys.least? with
  | none =>
      have hfree := m.keys.least?_eq_none_iff.mp hleast l
      rw [hl] at hfree
      cases hfree
  | some k =>
      have hk := (m.keys.least?_eq_some_iff k).mp hleast
      refine ⟨k, hk, ?_⟩
      rw [step_of_some hw.ofWord?]
      simp only [perform, Instruction.execute, hleast]
      rfl

/-- Without a key the program counter goes back to the word it has just passed. -/
theorem step_of_awaitsKey_of_free (hw : m.state.fetch.AwaitsKey)
    (hfree : ∀ k, m.keys.isHeld k = false) :
    m.step = ⟨m, [m.fetched, .record (.waiting m.state.fetch.x)], .ok ()⟩ := by
  have hback : m.past.state.rewind = m.state := by
    simp only [State.rewind, past, State.advance, UInt16.add_sub_cancel]
  rw [step_of_some hw.ofWord?]
  simp only [perform, Instruction.execute, m.keys.least?_eq_none_iff.mpr hfree, hback]
  rfl

end Steps

section Order

variable {m n : Machine}

/-- Commands other than steps do not look at the keys. -/
theorem obey_congr_of_ne_step {c : Command} (hc : c ≠ .step) (hstate : m.state = n.state)
    (hrandom : m.random = n.random) :
    (m.obey c).machine.state = (n.obey c).machine.state ∧
      (m.obey c).machine.random = (n.obey c).machine.random := by
  cases c with
  | load program =>
      simp only [obey, load]
      split <;> exact ⟨by simp [hstate], hrandom⟩
  | reset => exact ⟨rfl, hrandom⟩
  | step => exact absurd rfl hc
  | tick =>
      simp only [obey, tick, hstate]
      split <;> exact ⟨rfl, hrandom⟩
  | press code | release code =>
      simp only [obey, setKey]
      split <;> exact ⟨hstate, hrandom⟩

theorem obey_of_ofKeys {c : Command} (hc : c.OfKeys) (m : Machine) :
    (m.obey c).machine.state = m.state ∧ (m.obey c).machine.random = m.random := by
  cases c with
  | press code | release code =>
      simp only [obey, setKey]
      split <;> exact ⟨rfl, rfl⟩
  | _ => exact hc.elim

theorem after_filter_not_ofKeys {commands : List Command} (hnone : .step ∉ commands)
    (hstate : m.state = n.state) (hrandom : m.random = n.random) :
    (m.after commands).state = (n.after (commands.filter (¬·.OfKeys))).state ∧
      (m.after commands).random = (n.after (commands.filter (¬·.OfKeys))).random := by
  induction commands generalizing m n with
  | nil => exact ⟨hstate, hrandom⟩
  | cons c rest ih =>
      obtain ⟨hne, hrest⟩ := not_or.mp (mt List.mem_cons.mpr hnone)
      by_cases hc : c.OfKeys
      · obtain ⟨hs, hr⟩ := obey_of_ofKeys hc m
        rw [after_cons, List.filter_cons_of_neg (by simpa using hc)]
        exact ih hrest (hs.trans hstate) (hr.trans hrandom)
      · obtain ⟨hs, hr⟩ := obey_congr_of_ne_step (Ne.symm hne) hstate hrandom
        rw [after_cons, List.filter_cons_of_pos (by simpa using hc), after_cons]
        exact ih hrest hs hr

/-- Without a step among them, commands may be reordered as long as the events of each key, and the
commands that are no key events, stay in order. -/
theorem after_eq_of_sameOrders {first second : List Command}
    (h : Command.SameOrders first second) (hfirst : .step ∉ first) (m : Machine) :
    m.after first = m.after second := by
  have hsecond : .step ∉ second := by
    intro hmem
    have hother : Command.step ∈ second.filter (¬·.OfKeys) := by simpa [Command.OfKeys] using hmem
    rw [← h.others] at hother
    exact hfirst (List.mem_of_mem_filter hother)
  obtain ⟨hs, hr⟩ := after_filter_not_ofKeys (m := m) hfirst rfl rfl
  obtain ⟨hs', hr'⟩ := after_filter_not_ofKeys (m := m) hsecond rfl rfl
  have hkeys : (m.after first).keys = (m.after second).keys := by
    apply Keypad.ext
    intro k
    rw [isHeld_after, isHeld_after, h.keys]
  have hstate : (m.after first).state = (m.after second).state := by rw [hs, hs', h.others]
  have hrandom : (m.after first).random = (m.after second).random := by rw [hr, hr', h.others]
  cases hm : m.after first
  cases hm' : m.after second
  simp_all

end Order

/-- After any commands from power-on, a key is held exactly if there is a press of it that no
release of it has followed. Presses and releases of codes below 16 are accepted, others are refused
and change nothing. The skips on a held and on a free key see the held keys and nothing else, a
code that is no key being free; waiting for a key takes the least held key, or goes on waiting
without any change. Between steps, events of different keys may be reordered. -/
theorem keypad_keeps_last_events :
    (∀ random commands (k : Key),
      ((powerOn random).after commands).keys.isHeld k = true ↔
        Command.PressStands (UInt8.ofNat k.val) commands) ∧
    (∀ (m : Machine) (code : UInt8), ∀ c ∈ [Command.press code, .release code],
      (code.toNat < 16 → (m.obey c).result = .ok ()) ∧
      (16 ≤ code.toNat → m.obey c = ⟨m, [], .error (.invalidKey code)⟩)) ∧
    (∀ m : Machine,
      let w := m.state.fetch
      let a := m.state.counter
      let v := m.state.reg w.x
      (w.TestsHeld →
        (m.keys.Holds v → m.step = ⟨m.goTo (a + 4), [m.fetched], .ok ()⟩) ∧
        (¬m.keys.Holds v → m.step = ⟨m.goTo (a + 2), [m.fetched], .ok ()⟩)) ∧
      (w.TestsFree →
        (m.keys.Holds v → m.step = ⟨m.goTo (a + 2), [m.fetched], .ok ()⟩) ∧
        (¬m.keys.Holds v → m.step = ⟨m.goTo (a + 4), [m.fetched], .ok ()⟩)) ∧
      (16 ≤ v.toNat → ¬m.keys.Holds v) ∧
      (w.AwaitsKey →
        (∀ l, m.keys.isHeld l = true → ∃ k, m.keys.IsLeastHeld k ∧ m.step =
          ⟨{ m with state := m.past.state.setReg w.x (UInt8.ofNat k.val) },
            [m.fetched], .ok ()⟩) ∧
        ((∀ k, m.keys.isHeld k = false) →
          m.step = ⟨m, [m.fetched, .record (.waiting w.x)], .ok ()⟩))) ∧
    ∀ first second, Command.SameOrders first second → .step ∉ first → ∀ m : Machine,
      m.after first = m.after second ∧
      ∀ rest, (m.after first).replies rest = (m.after second).replies rest := by
  refine ⟨isHeld_after_powerOn_iff, ?_, ?_, ?_⟩
  · intro m code c hc
    obtain ⟨down, hsame⟩ : ∃ down, m.obey c = m.setKey code down := by
      simp only [List.mem_cons, List.not_mem_nil, or_false] at hc
      rcases hc with rfl | rfl <;> exact ⟨_, rfl⟩
    rw [hsame]
    refine ⟨?_, ?_⟩
    · intro hlt
      rw [setKey_of_lt hlt]
    · intro hle
      exact setKey_of_le hle down m
  · intro m w a v
    have hheld : m.keys.Holds v → m.keys.holdsCode v = true := (m.keys.holdsCode_iff v).mpr
    have hfree : ¬m.keys.Holds v → m.keys.holdsCode v = false := by
      intro h
      exact Bool.eq_false_iff.mpr (mt (m.keys.holdsCode_iff v).mp h)
    refine ⟨?_, ?_, fun hle => m.keys.not_holds_of_le hle, ?_⟩
    · intro hw
      rw [step_of_testsHeld hw]
      refine ⟨?_, ?_⟩
      · intro h
        rw [hheld h]
        rfl
      · intro h
        rw [hfree h]
        rfl
    · intro hw
      rw [step_of_testsFree hw]
      refine ⟨?_, ?_⟩
      · intro h
        rw [hheld h]
        rfl
      · intro h
        rw [hfree h]
        rfl
    · intro hw
      exact ⟨fun l hl => step_of_awaitsKey_of_isHeld hw hl, step_of_awaitsKey_of_free hw⟩
  · intro first second hsame hfirst m
    have hafter := after_eq_of_sameOrders hsame hfirst m
    exact ⟨hafter, fun rest => by rw [hafter]⟩

/-- Key 7 is let go again, so the least held key is 9; a tick and a code that is no key lie between
the events. -/
theorem keypad_keeps_last_events_of_two_keys :
    let random : Generator := ⟨Vector.replicate 8 0, 0⟩
    let m := powerOn random
    let first : List Command :=
      [.load [0xF3, 0x0A], .press 7, .tick, .press 0x10, .press 9, .release 7, .press 0xB]
    let second : List Command :=
      [.press 0xB, .press 9, .press 7, .release 7, .load [0xF3, 0x0A], .press 0x10, .tick]
    let now := m.after first
    Command.SameOrders first second ∧ .step ∉ first ∧ now = m.after second ∧
      Command.PressStands (UInt8.ofNat (9 : Key).val) first ∧ now.keys.isHeld 9 = true ∧
      16 ≤ (0x10 : UInt8).toNat ∧ (now.obey (.press 0x10)).machine = now ∧
      now.state.fetch.AwaitsKey ∧ now.keys.IsLeastHeld 9 ∧
      now.step.machine.state.reg now.state.fetch.x = UInt8.ofNat (9 : Key).val := by
  intro random m first second now
  have hsame : Command.SameOrders first second := by
    constructor
    · rintro ⟨⟨code⟩⟩
      revert code
      decide +kernel
    · decide
  have hfirst : .step ∉ first := by decide
  have hpress : Command.PressStands (UInt8.ofNat (9 : Key).val) first :=
    ⟨[.load [0xF3, 0x0A], .press 7, .tick, .press 0x10], [.release 7, .press 0xB], rfl, by decide⟩
  have hcode : 16 ≤ (0x10 : UInt8).toNat := by decide
  have hw : now.state.fetch.AwaitsKey := by decide +kernel
  have hleast : now.keys.IsLeastHeld 9 := by
    unfold Keypad.IsLeastHeld
    decide +kernel
  obtain ⟨hheld, hcodes, hsteps, horder⟩ := keypad_keeps_last_events
  have hrefused := (hcodes now 0x10 _ (List.mem_cons_self ..)).2 hcode
  obtain ⟨k, hk, htaken⟩ := ((hsteps now).2.2.2 hw).1 9 hleast.1
  obtain rfl : k = 9 := le_antisymm (hk.2 9 hleast.1) (hleast.2 k hk.1)
  refine ⟨hsame, hfirst, (horder first second hsame hfirst m).1, hpress,
    (hheld random first 9).mpr hpress, hcode, ?_, hw, hleast, ?_⟩
  · rw [hrefused]
  · rw [htaken]
    exact State.reg_setReg_self _ _ _

end Machine

end ChipEight
