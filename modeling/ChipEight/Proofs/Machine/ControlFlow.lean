import ChipEight.Proofs.Instruction.Frame
import ChipEight.Proofs.Machine.Calls
import ChipEight.Proofs.Machine.Keys

namespace ChipEight

/-!
# Where a step goes on

The address a machine has reached behind a step, for each kind of word. Most words go on
to the next one. Skips come in pairs that ask for the opposite, so of two such words in
the same place exactly one passes over the word behind it.
-/

namespace Word

/-- The words that skip the next one under a condition. -/
def Skips (w : Word) : Prop :=
  w.group.val ∈ [0x3, 0x4, 0x5, 0x9] ∨ w.TestsHeld ∨ w.TestsFree

/-- Two words that skip under opposite conditions on the same operands. -/
def Opposite (w v : Word) : Prop :=
  w.group.val = 0x3 ∧ v.group.val = 0x4 ∧ v.x = w.x ∧ v.nn = w.nn ∨
  w.group.val = 0x5 ∧ v.group.val = 0x9 ∧ v.x = w.x ∧ v.y = w.y ∨
  w.TestsHeld ∧ v.TestsFree ∧ v.x = w.x

instance (w : Word) : Decidable w.Skips := inferInstanceAs (Decidable (_ ∨ _))

instance (w v : Word) : Decidable (w.Opposite v) := inferInstanceAs (Decidable (_ ∨ _))

theorem Skips.exists_skipIf {w : Word} (h : w.Skips) :
    ∃ c, Instruction.ofWord? w = some (.skipIf c) := by
  simp only [Skips, List.mem_cons, List.not_mem_nil, or_false] at h
  rcases h with (h | h | h | h) | h | h
  · exact ⟨_, Instruction.ofWord?_of_encodes (i := .skipIf (.equalsByte w.x w.nn)) ⟨h, rfl, rfl⟩⟩
  · exact ⟨_, Instruction.ofWord?_of_encodes (i := .skipIf (.differsByte w.x w.nn)) ⟨h, rfl, rfl⟩⟩
  · exact ⟨_, Instruction.ofWord?_of_encodes (i := .skipIf (.equalsReg w.x w.y)) ⟨h, rfl, rfl⟩⟩
  · exact ⟨_, Instruction.ofWord?_of_encodes (i := .skipIf (.differsReg w.x w.y)) ⟨h, rfl, rfl⟩⟩
  · exact ⟨_, h.ofWord?⟩
  · exact ⟨_, h.ofWord?⟩

theorem Opposite.exists_skipIf {w v : Word} (h : w.Opposite v) :
    ∃ c d, Instruction.ofWord? w = some (.skipIf c) ∧ Instruction.ofWord? v = some (.skipIf d) ∧
      ∀ keys s, d.holds keys s = !c.holds keys s := by
  rcases h with ⟨hw, hv, hx, hnn⟩ | ⟨hw, hv, hx, hy⟩ | ⟨hw, hv, hx⟩
  · exact ⟨.equalsByte w.x w.nn, .differsByte w.x w.nn,
      Instruction.ofWord?_of_encodes ⟨hw, rfl, rfl⟩,
      Instruction.ofWord?_of_encodes ⟨hv, hx, hnn⟩, fun _ _ => rfl⟩
  · exact ⟨.equalsReg w.x w.y, .differsReg w.x w.y, Instruction.ofWord?_of_encodes ⟨hw, rfl, rfl⟩,
      Instruction.ofWord?_of_encodes ⟨hv, hx, hy⟩, fun _ _ => rfl⟩
  · exact ⟨.keyHeld w.x, .keyFree w.x, hw.ofWord?,
      Instruction.ofWord?_of_encodes ⟨hv.1, hv.2, hx⟩, fun _ _ => rfl⟩

theorem not_mayChange_counter {w : Word} {keys : Keypad} {s : State}
    (hjump : w.group.val ∉ [0x1, 0x2, 0xB]) (hreturn : ¬w.IsReturn) (hskip : ¬w.Skips)
    (hwait : ¬(w.AwaitsKey ∧ ∀ k, keys.isHeld k = false)) : ¬w.MayChange keys s .counter := by
  simp only [Skips, not_or] at hskip
  rintro (h | h | h | h | h)
  · simp only [List.mem_cons, List.not_mem_nil, or_false] at h hjump hskip
    omega
  · exact hreturn h
  · exact hskip.2.1 h
  · exact hskip.2.2 h
  · exact hwait h

end Word

namespace CallStack

theorem getElem?_of_pop? {s t : CallStack} {a : UInt16} (h : s.pop? = some (a, t)) :
    0 < s.depth ∧ s.slots[s.depth - 1]? = some a := by
  rcases s with ⟨slots, _ | depth, hle⟩
  · cases h
  · cases h
    exact ⟨Nat.succ_pos depth, Vector.getElem?_eq_getElem hle⟩

end CallStack

theorem Condition.holds_congr {s t : State} (h : s.registers = t.registers) (keys : Keypad)
    (c : Condition) : c.holds keys s = c.holds keys t := by
  cases c <;> simp only [holds, State.reg, h]

namespace Machine

variable {m : Machine}

theorem exists_execute_of_ok (h : m.step.result = .ok ()) :
    ∃ i e, Instruction.ofWord? m.state.fetch = some i ∧
      i.execute m.keys m.random m.past.state = .ok e ∧ m.step.machine.state = e.state := by
  rcases m.step_cases with ⟨_, hs⟩ | ⟨i, f, _, _, hs⟩ | ⟨i, e, hi, he, hs⟩
  · rw [hs] at h
    cases h
  · rw [hs] at h
    cases h
  · exact ⟨i, e, hi, he, by rw [hs]⟩

theorem add_four_ne_add_two (a : UInt16) : a + 4 ≠ a + 2 := by
  rw [Ne, ← UInt16.toNat_inj, UInt16.toNat_add, UInt16.toNat_add]
  have h := a.toNat_lt
  simp only [UInt16.reduceToNat]
  omega

theorem counter_step_of_skipIf {c : Condition}
    (hi : Instruction.ofWord? m.state.fetch = some (.skipIf c)) :
    m.step.machine.state.counter =
      m.state.counter + if c.holds m.keys m.state then 4 else 2 := by
  rw [step_of_skipIf hi]
  rfl

theorem counter_step_eq_iff {c : Condition}
    (hi : Instruction.ofWord? m.state.fetch = some (.skipIf c)) :
    m.step.machine.state.counter = m.state.counter + 4 ↔ c.holds m.keys m.state = true := by
  rw [counter_step_of_skipIf hi]
  cases c.holds m.keys m.state with
  | true => exact iff_of_true rfl rfl
  | false => exact iff_of_false (add_four_ne_add_two _).symm Bool.false_ne_true

/-- The second machine stands where the first one does, before the opposite word. -/
theorem counters_step_of_opposite {n : Machine} (hregisters : n.state.registers = m.state.registers)
    (hkeys : n.keys = m.keys) (hcounter : n.state.counter = m.state.counter)
    (hw : m.state.fetch.Opposite n.state.fetch) :
    m.step.result = .ok () ∧ n.step.result = .ok () ∧
      (m.step.machine.state.counter = m.state.counter + 4 ∧
          n.step.machine.state.counter = m.state.counter + 2 ∨
        m.step.machine.state.counter = m.state.counter + 2 ∧
          n.step.machine.state.counter = m.state.counter + 4) := by
  obtain ⟨c, d, hc, hd, hopposite⟩ := hw.exists_skipIf
  refine ⟨by rw [step_of_skipIf hc], by rw [step_of_skipIf hd], ?_⟩
  rw [counter_step_of_skipIf hc, counter_step_of_skipIf hd, hcounter, hkeys,
    d.holds_congr hregisters m.keys, hopposite]
  cases c.holds m.keys m.state with
  | true => exact Or.inl ⟨rfl, rfl⟩
  | false => exact Or.inr ⟨rfl, rfl⟩

theorem counter_step_of_jump (hw : m.state.fetch.group.val = 0x1) :
    m.step.machine.state.counter = UInt16.ofNat m.state.fetch.nnn.val := by
  rw [step_of_some (Instruction.ofWord?_of_encodes (i := .jump m.state.fetch.nnn) ⟨hw, rfl⟩)]
  rfl

theorem counter_step_of_jumpOffset (hw : m.state.fetch.group.val = 0xB) :
    m.step.machine.state.counter =
      UInt16.ofNat ((m.state.reg offset).toNat + m.state.fetch.nnn.val) := by
  rw [step_of_some (Instruction.ofWord?_of_encodes (i := .jumpOffset m.state.fetch.nnn) ⟨hw, rfl⟩)]
  rfl

theorem counter_step_of_isCall (hw : m.state.fetch.IsCall) (h : m.step.result = .ok ()) :
    m.step.machine.state.counter = UInt16.ofNat m.state.fetch.nnn.val := by
  cases hpush : m.state.calls.push? (m.state.counter + 2) with
  | none =>
      rw [step_of_push?_eq_none hw hpush] at h
      cases h
  | some calls => rw [step_of_push? hw hpush]

theorem counter_step_of_isReturn (hw : m.state.fetch.IsReturn) (h : m.step.result = .ok ()) :
    0 < m.state.calls.depth ∧
      m.state.calls.slots[m.state.calls.depth - 1]? = some m.step.machine.state.counter := by
  cases hpop : m.state.calls.pop? with
  | none =>
      rw [step_of_pop?_eq_none hw hpop] at h
      cases h
  | some top =>
      rw [step_of_pop? hw hpop]
      exact CallStack.getElem?_of_pop? hpop

/-- Words that may not change the counter go on to the next word. -/
theorem counter_step_of_not_mayChange (h : m.step.result = .ok ())
    (hw : ¬m.state.fetch.MayChange m.keys m.past.state .counter) :
    m.step.machine.state.counter = m.state.counter + 2 := by
  obtain ⟨i, e, hi, he, hs⟩ := exists_execute_of_ok h
  rw [hs]
  exact Instruction.same_of_not_writes (mt (Instruction.mayChange_of_writes hi) hw) he

/-- A jump and a call go on at their target, a return at the latest return address, and the jump
with an offset at the sum of its target and register 0, however large. Waiting without a key stays
where it is, a skip passes over the next word or does not, and every other word goes on to the next.
Of two opposite skips in the same place exactly one passes over the next word. -/
theorem counter_behind_step (m : Machine) :
    let a := m.state.counter
    let w := m.state.fetch
    let next := m.step.machine.state.counter
    (m.step.result = .ok () →
      (w.group.val = 0x1 ∨ w.IsCall → next.toNat = w.nnn.val) ∧
      (w.IsReturn → 0 < m.state.calls.depth ∧
        m.state.calls.slots[m.state.calls.depth - 1]? = some next) ∧
      (w.group.val = 0xB → next.toNat = (m.state.reg offset).toNat + w.nnn.val) ∧
      (w.AwaitsKey → (∀ k, m.keys.isHeld k = false) → next = a) ∧
      (w.Skips → next = a + 4 ∨ next = a + 2) ∧
      (w.group.val ∉ [0x1, 0x2, 0xB] → ¬w.IsReturn → ¬w.Skips →
        ¬(w.AwaitsKey ∧ ∀ k, m.keys.isHeld k = false) → next = a + 2)) ∧
    (w.group.val = 0x3 → (next = a + 4 ↔ m.state.reg w.x = w.nn)) ∧
    (w.group.val = 0x5 → (next = a + 4 ↔ m.state.reg w.x = m.state.reg w.y)) ∧
    (w.TestsHeld → (next = a + 4 ↔ m.keys.Holds (m.state.reg w.x))) ∧
    ∀ n : Machine, n.state.registers = m.state.registers → n.keys = m.keys → n.state.counter = a →
      w.Opposite n.state.fetch →
      m.step.result = .ok () ∧ n.step.result = .ok () ∧ a + 4 ≠ a + 2 ∧
      (next = a + 4 ∧ n.step.machine.state.counter = a + 2 ∨
        next = a + 2 ∧ n.step.machine.state.counter = a + 4) := by
  intro a w next
  have hbyte := (m.state.reg offset).toNat_lt
  have htarget := w.nnn.isLt
  refine ⟨?_, ?_, ?_, ?_, ?_⟩
  · intro hok
    refine ⟨?_, fun hw => counter_step_of_isReturn hw hok, ?_, ?_, ?_, ?_⟩
    · intro hw
      have hnext : next = UInt16.ofNat w.nnn.val := by
        rcases hw with hw | hw
        · exact counter_step_of_jump hw
        · exact counter_step_of_isCall hw hok
      rw [hnext, UInt16.toNat_ofNat']
      omega
    · intro hw
      have hnext : next = UInt16.ofNat ((m.state.reg offset).toNat + w.nnn.val) :=
        counter_step_of_jumpOffset hw
      rw [hnext, UInt16.toNat_ofNat']
      omega
    · intro hw hfree
      have hstep : m.step = _ := step_of_awaitsKey_of_free hw hfree
      exact congrArg (·.machine.state.counter) hstep
    · intro hw
      obtain ⟨c, hc⟩ := hw.exists_skipIf
      have hnext : next = a + if c.holds m.keys m.state then 4 else 2 := counter_step_of_skipIf hc
      rw [hnext]
      split
      · exact Or.inl rfl
      · exact Or.inr rfl
    · intro hjump hreturn hskip hwait
      exact counter_step_of_not_mayChange hok
        (Word.not_mayChange_counter hjump hreturn hskip hwait)
  · intro hw
    have hi : Instruction.ofWord? w = some (.skipIf (.equalsByte w.x w.nn)) :=
      Instruction.ofWord?_of_encodes ⟨hw, rfl, rfl⟩
    exact (counter_step_eq_iff hi).trans beq_iff_eq
  · intro hw
    have hi : Instruction.ofWord? w = some (.skipIf (.equalsReg w.x w.y)) :=
      Instruction.ofWord?_of_encodes ⟨hw, rfl, rfl⟩
    exact (counter_step_eq_iff hi).trans beq_iff_eq
  · intro hw
    exact (counter_step_eq_iff hw.ofWord?).trans (m.keys.holdsCode_iff _)
  · intro n hregisters hkeys hcounter hw
    obtain ⟨hm, hn, hcounters⟩ := counters_step_of_opposite hregisters hkeys hcounter hw
    exact ⟨hm, hn, add_four_ne_add_two a, hcounters⟩

/-- At the last address a skip goes on around it. The largest jump with an offset leaves the
addresses of three digits. -/
theorem counter_behind_step_of_last_address :
    let before (bytes : List UInt8) : Machine :=
      ⟨{ State.powerOn.setReg offset 0xFF with
          counter := 0xFFFE, memory := Memory.blank.writeList 0xFFFE bytes },
        .free, ⟨Vector.replicate 8 0, 0⟩⟩
    let m := before [0x30, 0xFF]
    let n := before [0x40, 0xFF]
    let j := before [0xBF, 0xFF]
    m.state.fetch.Opposite n.state.fetch ∧ m.step.machine.state.counter = 0x0002 ∧
      n.step.machine.state.counter = 0x0000 ∧
      j.step.result = .ok () ∧ j.state.fetch.group.val = 0xB ∧
      j.step.machine.state.counter.toNat = 0x10FE := by
  intro before m n j
  have hm : m.state.fetch = 0x30FF := by decide +kernel
  have hn : n.state.fetch = 0x40FF := by decide +kernel
  have hj : j.state.fetch = 0xBFFF := by decide +kernel
  have hopposite : m.state.fetch.Opposite n.state.fetch := by
    rw [hm, hn]
    decide
  have hgroup : m.state.fetch.group.val = 0x3 := by rw [hm]; decide
  have hequal : m.state.reg m.state.fetch.x = m.state.fetch.nn := by
    rw [hm]
    decide
  have hjump : j.state.fetch.group.val = 0xB := by rw [hj]; decide
  have hok : j.step.result = .ok () := by
    rw [step_of_some (Instruction.ofWord?_of_encodes (i := .jumpOffset 0xFFF) ⟨hjump, ?_⟩)]
    · rfl
    · rw [hj]
      decide
  have hsum : (j.state.reg offset).toNat + j.state.fetch.nnn.val = 0x10FE := by
    rw [hj]
    decide
  have hwrap : m.state.counter + 4 = 0x0002 ∧ m.state.counter + 2 = 0x0000 := by decide
  obtain ⟨-, hbyte, -, -, hpair⟩ := counter_behind_step m
  have hnext := (hbyte hgroup).mpr hequal
  obtain ⟨-, -, hne, hcounters⟩ := hpair n rfl rfl rfl hopposite
  refine ⟨hopposite, hnext.trans hwrap.1, ?_, hok, hjump, ?_⟩
  · rcases hcounters with ⟨-, h⟩ | ⟨h, -⟩
    · exact h.trans hwrap.2
    · exact absurd (hnext.symm.trans h) hne
  · rw [((counter_behind_step j).1 hok).2.2.1 hjump, hsum]

end Machine

end ChipEight
