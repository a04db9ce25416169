import Mathlib.Algebra.Group.Nat.Defs
import ChipEight.Proofs.Machine.Locality
import ChipEight.Proofs.Machine.Restart

namespace ChipEight

/-!
# Memory holds what was written last

A cell holds the byte that the latest step storing to it has put there, and the image of
the program if no step has. The next word is put together from such bytes, so a program
that overwrites itself is executed as it was written last.
-/

theorem getElem?_decimalDigits (v : UInt8) (k : Nat) (b : UInt8) :
    (decimalDigits v)[k]? = some b ↔ k < 3 ∧ b.toNat = v.toNat / 10 ^ (2 - k) % 10 := by
  have hv := v.toNat_lt
  have hb : ∀ d : UInt8, d = b ↔ b.toNat = d.toNat := by
    intro d
    rw [← UInt8.toNat_inj, eq_comm]
  match k with
  | 0 =>
      have hlow : v.toNat / 100 < 10 := by omega
      simp [decimalDigits, hb, Nat.mod_eq_of_lt hlow]
  | 1 => simp [decimalDigits, hb]
  | 2 => simp [decimalDigits, hb]
  | k + 3 => simp [decimalDigits]

namespace State

/-- A step stores a byte in a cell: a decimal digit of `VX`, most significant first, or the value
of one of the registers up to `X`. -/
def Stores (s : State) (c : Fin 4096) (b : UInt8) : Prop :=
  s.fetch.group.val = 0xF ∧ ∃ k, (s.index.toNat + k) % 4096 = c.val ∧
    (s.fetch.nn = 0x33 ∧ k < 3 ∧ b.toNat = (s.reg s.fetch.x).toNat / 10 ^ (2 - k) % 10 ∨
      s.fetch.nn = 0x55 ∧ k ≤ s.fetch.x.val ∧ s.registers[k]? = some b)

end State

namespace Instruction

/-- The bytes that an instruction writes, from where the index register points. -/
def stored (s : State) : Instruction → List UInt8
  | .storeDigits x => decimalDigits (s.reg x)
  | .save x => s.regsUpTo x
  | _ => []

theorem length_stored (s : State) (i : Instruction) : (i.stored s).length = i.writeLength := by
  cases i with
  | save x => exact s.length_regsUpTo x
  | _ => rfl

theorem memory_eq_writeList {i : Instruction} {keys : Keypad} {random : Generator} {s : State}
    {e : Effect} (h : i.execute keys random s = .ok e) :
    e.state.memory = s.memory.writeList s.index (i.stored s) := by
  by_cases ha : i.Accesses
  · cases i with
    | draw x y rows | storeDigits x | save x =>
        cases h
        rfl
    | restore x =>
        obtain rfl : { state := s.loadRegs x, random } = e := Except.ok.inj h
        rw [State.loadRegs]
        rfl
    | _ => exact ha.elim
  · have hnone : i.stored s = [] := by
      rw [← List.length_eq_zero_iff, length_stored, writeLength_of_not_accesses ha]
    rw [memory_of_execute ha h, hnone, Memory.writeList_nil]

end Instruction

namespace State

theorem stores_iff (s : State) (c : Fin 4096) (b : UInt8) :
    s.Stores c b ↔ ∃ i k, s.fetch.Encodes i ∧ (s.index.toNat + k) % 4096 = c.val ∧
      (i.stored s)[k]? = some b := by
  constructor
  · rintro ⟨hg, k, hc, ⟨hnn, hdigit⟩ | ⟨hnn, hreg⟩⟩
    · exact ⟨.storeDigits s.fetch.x, k, ⟨hg, hnn, rfl⟩, hc,
        (getElem?_decimalDigits _ k b).mpr hdigit⟩
    · exact ⟨.save s.fetch.x, k, ⟨hg, hnn, rfl⟩, hc, (s.getElem?_regsUpTo _ k b).mpr hreg⟩
  · rintro ⟨i, k, henc, hc, hb⟩
    cases i with
    | storeDigits x =>
        obtain ⟨hg, hnn, rfl⟩ := henc
        exact ⟨hg, k, hc, Or.inl ⟨hnn, (getElem?_decimalDigits _ k b).mp hb⟩⟩
    | save x =>
        obtain ⟨hg, hnn, rfl⟩ := henc
        exact ⟨hg, k, hc, Or.inr ⟨hnn, (s.getElem?_regsUpTo _ k b).mp hb⟩⟩
    | _ => simp [Instruction.stored] at hb

/-- The cells a step writes are those it stores some byte in. -/
theorem writes_iff_exists_stores (s : State) (c : Fin 4096) :
    s.Writes c ↔ ∃ b, s.Stores c b := by
  simp only [stores_iff]
  constructor
  · rintro ⟨i, henc, k, hk, hc⟩
    rw [← i.length_stored s] at hk
    exact ⟨_, i, k, henc, hc, List.getElem?_eq_getElem hk⟩
  · rintro ⟨b, i, k, henc, hc, hb⟩
    obtain ⟨hk, -⟩ := List.getElem?_eq_some_iff.mp hb
    exact ⟨i, henc, k, i.length_stored s ▸ hk, hc⟩

end State

namespace Machine

variable {m : Machine} {c : Fin 4096} {b : UInt8}

theorem memory_step {i : Instruction} (hi : Instruction.ofWord? m.state.fetch = some i) :
    m.step.machine.state.memory = m.state.memory.writeList m.state.index (i.stored m.state) := by
  have hstored : i.stored m.past.state = i.stored m.state := by cases i <;> rfl
  rw [step_of_some hi]
  cases he : i.execute m.keys m.random m.past.state with
  | error f =>
      have hnone : i.stored m.state = [] := by
        rw [← List.length_eq_zero_iff, i.length_stored, Instruction.writeLength_of_execute_error he]
      rw [perform_of_error he, hnone]
      rfl
  | ok e =>
      have hmem := Instruction.memory_eq_writeList he
      rw [hstored] at hmem
      rw [perform_of_ok he]
      exact hmem

theorem get_step_of_stores (h : m.state.Stores c b) : m.step.machine.state.memory.get c = b := by
  obtain ⟨i, k, henc, hc, hb⟩ := (m.state.stores_iff c b).mp h
  obtain ⟨hk, rfl⟩ := List.getElem?_eq_some_iff.mp hb
  obtain rfl := (Memory.cell_add_eq_iff m.state.index k c).mpr hc
  have hlen : (i.stored m.state).length ≤ 16 := by
    rw [i.length_stored]
    exact i.writeLength_le
  rw [memory_step (Instruction.ofWord?_of_encodes henc)]
  exact Memory.get_writeList_add hk (hlen.trans (by decide))

theorem get_step_of_not_writes (h : ¬m.state.Writes c) :
    m.step.machine.state.memory.get c = m.state.memory.get c := by
  cases hi : Instruction.ofWord? m.state.fetch with
  | none =>
      rw [step_of_none hi]
      rfl
  | some i =>
      rw [State.writes_iff hi, ← i.length_stored m.state] at h
      rw [memory_step hi, Memory.get_writeList_of_not_window h]

theorem get_after_of_not_someStep {commands : List Command} (hd : ∀ d ∈ commands, ¬d.Renews)
    (h : ¬m.SomeStep (fun s => s.Writes c) commands) :
    (m.after commands).state.memory.get c = m.state.memory.get c := by
  induction commands generalizing m with
  | nil => rfl
  | cons d rest ih =>
      rw [someStep_cons, not_or] at h
      rw [after_cons, ih (fun x hx => hd x (List.mem_cons_of_mem d hx)) h.2]
      by_cases hstep : d = .step
      · subst hstep
        exact get_step_of_not_writes fun hw => h.1 ⟨rfl, hw⟩
      · obtain ⟨_, delay, screen, hs⟩ := m.obey_of_ne_step hstep (hd d (by simp))
        rw [hs]

/-- The byte that the latest of the steps of a run that store to a cell has put there. -/
def LastStored (m : Machine) (commands : List Command) (c : Fin 4096) (b : UInt8) : Prop :=
  ∃ first rest, commands = first ++ .step :: rest ∧ (m.after first).state.Stores c b ∧
    ¬(m.after first).step.machine.SomeStep (fun s => s.Writes c) rest

theorem LastStored.cons {d : Command} {rest : List Command}
    (h : (m.obey d).machine.LastStored rest c b) : m.LastStored (d :: rest) c b := by
  obtain ⟨first, behind, rfl, hb, hnone⟩ := h
  exact ⟨d :: first, behind, rfl, hb, hnone⟩

theorem exists_lastStored {commands : List Command}
    (h : m.SomeStep (fun s => s.Writes c) commands) : ∃ b, m.LastStored commands c b := by
  induction commands generalizing m with
  | nil => exact absurd h (not_someStep_nil _ m)
  | cons d rest ih =>
      -- The first command counts only if no later step writes the cell.
      by_cases hrest : (m.obey d).machine.SomeStep (fun s => s.Writes c) rest
      · obtain ⟨b, hb⟩ := ih hrest
        exact ⟨b, hb.cons⟩
      · rcases (someStep_cons _ m d rest).mp h with ⟨rfl, hw⟩ | hw
        · obtain ⟨b, hb⟩ := (m.state.writes_iff_exists_stores c).mp hw
          exact ⟨b, [], rest, rfl, hb, hrest⟩
        · exact absurd hw hrest

theorem get_after_of_lastStored {commands : List Command} (hd : ∀ d ∈ commands, ¬d.Renews)
    (h : m.LastStored commands c b) : (m.after commands).state.memory.get c = b := by
  obtain ⟨first, rest, rfl, hb, hnone⟩ := h
  rw [after_append, after_cons]
  have hrest : ∀ d ∈ rest, ¬d.Renews := fun d hmem => hd d (by simp [hmem])
  exact (get_after_of_not_someStep hrest hnone).trans (get_step_of_stores hb)

/-- A machine as it is when a program has been put in. After a reset, and when the machine is new,
that is the program without bytes. -/
inductive Started : List UInt8 → Machine → Prop
  | load {m : Machine} {program : List UInt8} (h : (m.load program).result = .ok ()) :
      Started program (m.load program).machine
  | reset (m : Machine) : Started [] m.reset.machine
  | powerOn (random : Generator) : Started [] (powerOn random)

theorem Started.get_memory {program : List UInt8} (h : Started program m) :
    m.state.memory.get c = Memory.image program c := by
  have hnil : Memory.powerOn.get c = Memory.image [] c := by
    rw [← Memory.withProgram_nil]
    exact Memory.get_withProgram (Nat.zero_le _) c
  cases h with
  | @load m program hok =>
      have fits : program.length ≤ programRoom := (m.renews_iff (.load program)).mpr ⟨trivial, hok⟩
      rw [load_of_le fits]
      exact Memory.get_withProgram fits c
  | reset m => exact hnil
  | powerOn random => exact hnil

/-- What a run from a program's image leaves in a cell. -/
def Leaves (m : Machine) (program : List UInt8) (commands : List Command) (c : Fin 4096)
    (b : UInt8) : Prop :=
  m.LastStored commands c b ∨
    ¬m.SomeStep (fun s => s.Writes c) commands ∧ b = Memory.image program c

theorem get_after_iff {program : List UInt8} (hm : Started program m) {commands : List Command}
    (hd : ∀ d ∈ commands, ¬d.Renews) :
    (m.after commands).state.memory.get c = b ↔ m.Leaves program commands c b := by
  constructor
  · rintro rfl
    by_cases hw : m.SomeStep (fun s => s.Writes c) commands
    · obtain ⟨b, hb⟩ := exists_lastStored hw
      rw [get_after_of_lastStored hd hb]
      exact Or.inl hb
    · exact Or.inr ⟨hw, (get_after_of_not_someStep hd hw).trans hm.get_memory⟩
  · rintro (hb | ⟨hw, rfl⟩)
    · exact get_after_of_lastStored hd hb
    · exact (get_after_of_not_someStep hd hw).trans hm.get_memory

/-- After a run without restarts, a cell holds the byte that the latest step storing to it has put
there, or what the program's image has there if no step has stored to it. The next step executes
the word made of the two bytes that the run has left at the program counter. Digits and program
are as they were put in wherever no step has stored. -/
theorem memory_keeps_last_write {program : List UInt8} {m : Machine} (hm : Started program m)
    {commands : List Command} (hd : ∀ d ∈ commands, ¬d.Renews) :
    let now := m.after commands
    (∀ c b, now.state.memory.get c = b ↔ m.Leaves program commands c b) ∧
    (∀ high low, m.Leaves program commands (Memory.cell now.state.counter) high →
      m.Leaves program commands (Memory.cell (now.state.counter + 1)) low →
      (∀ i, (Word.ofBytes high low).Encodes i → now.step = now.perform i) ∧
      (¬(Word.ofBytes high low).Listed →
        now.step.result =
          .error (.invalidInstruction (Word.ofBytes high low) now.state.counter))) ∧
    (∀ c b, Font.sheet[c.val]? = some b → ¬m.SomeStep (fun s => s.Writes c) commands →
      now.state.memory.get c = b) ∧
    ∀ (c : Fin 4096) k b, c.val = 0x200 + k → program[k]? = some b →
      ¬m.SomeStep (fun s => s.Writes c) commands → now.state.memory.get c = b := by
  intro now
  have hget := fun c b => get_after_iff (c := c) (b := b) hm hd
  refine ⟨hget, ?_, ?_, ?_⟩
  · intro high low hhigh hlow
    have hfetch : now.state.fetch = Word.ofBytes high low := by
      rw [← (hget _ _).mpr hhigh, ← (hget _ _).mpr hlow]
      rfl
    constructor
    · intro i henc
      exact step_of_some (hfetch ▸ Instruction.ofWord?_of_encodes henc)
    · intro hl
      rw [step_of_none (hfetch ▸ (Instruction.ofWord?_eq_none_iff _).mpr hl), reject, hfetch]
  · intro c b hb hw
    exact (hget c b).mpr (Or.inr ⟨hw, (Memory.image_eq_of_sheet hb program).symm⟩)
  · intro c k b hc hb hw
    exact (hget c b).mpr (Or.inr ⟨hw, (Memory.image_eq_of_program hc hb).symm⟩)

/-- The program stores two registers over the jump that it comes to, which makes it a clear. -/
theorem memory_keeps_last_write_of_self_modification :
    let random : Generator := ⟨Vector.replicate 8 0, 0⟩
    let program : List UInt8 := [0xA2, 0x06, 0x61, 0xE0, 0xF1, 0x55, 0x12, 0x06]
    let m := ((powerOn random).load program).machine
    let commands : List Command := [.step, .tick, .step, .step]
    let now := m.after commands
    Started program m ∧ (∀ d ∈ commands, ¬d.Renews) ∧
      m.Leaves program commands (Memory.cell now.state.counter) 0x00 ∧
      m.Leaves program commands (Memory.cell (now.state.counter + 1)) 0xE0 ∧
      now.step = now.perform .clear := by
  intro random program m commands now
  have hm : Started program m := .load rfl
  have hd : ∀ d ∈ commands, ¬d.Renews := by simp [commands, Command.Renews]
  have hget := (memory_keeps_last_write hm hd).1
  have hhigh := (hget (Memory.cell now.state.counter) 0x00).mp (by decide +kernel)
  have hlow := (hget (Memory.cell (now.state.counter + 1)) 0xE0).mp (by decide +kernel)
  have hstep := ((memory_keeps_last_write hm hd).2.1 _ _ hhigh hlow).1 .clear ⟨by decide, by decide⟩
  exact ⟨hm, hd, hhigh, hlow, hstep⟩

end Machine

end ChipEight
