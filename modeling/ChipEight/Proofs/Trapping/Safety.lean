import ChipEight.Proofs.Trapping.Operations

namespace ChipEight.Trapping

/-!
# No command traps

Copying the digits and a program stays inside memory, and a step does what its operation
does. So every command ends with a reply, and from power-on on, whatever the commands
are, the machine in guarded arithmetic gives the replies of the machine.
-/

namespace State

theorem getElem_bytes (m : Memory) {i : Nat} (hi : i < 4096) : m.bytes[i] = m.get ⟨i, hi⟩ := rfl

theorem copyInto_sheet :
    copyInto (Vector.replicate 4096 0) Font.base (Font.base + Font.sheet.length) Font.sheet =
      .ok Memory.powerOn.bytes := by
  have hlen : Font.sheet.length = 80 := rfl
  apply copyInto_eq_ok rfl (by decide)
  · intro k hk hi
    rw [getElem_bytes, Memory.get_powerOn]
    simp only [Font.base, Nat.zero_add, List.getElem?_eq_getElem hk, Option.getD_some]
  · intro i hi hout
    have hbehind : Font.sheet.length ≤ i := by
      rw [Font.base] at hout
      omega
    rw [getElem_bytes, Memory.get_powerOn, List.getElem?_eq_none hbehind, Vector.getElem_replicate]
    rfl

theorem powerOn_eq_ok : powerOn = .ok (ofState .powerOn) := by
  have hstop : addSize Font.base Font.sheet.length = .ok (Font.base + Font.sheet.length) :=
    addSize_of_lt (by decide)
  simp only [powerOn, hstop, ok_bind, copyInto_sheet, pure_eq_ok, ofState,
    ChipEight.State.powerOn, Screen.dark, Pixels.ofGrid_blank]
  rfl

theorem copyInto_program {program : List UInt8} (fits : program.length ≤ programRoom) :
    copyInto Memory.powerOn.bytes programStart (programStart + program.length) program =
      .ok (Memory.withProgram program).bytes := by
  have hroom : programStart + program.length ≤ 4096 := by
    simp only [programRoom, memorySize, programStart] at fits ⊢
    omega
  apply copyInto_eq_ok rfl hroom
  · intro k hk hi
    have hcell : Memory.cell (UInt16.ofNat programStart + UInt16.ofNat k) =
        ⟨programStart + k, hi⟩ := by
      rw [Memory.cell_add_eq_iff]
      exact Nat.mod_eq_of_lt hi
    rw [getElem_bytes, ← hcell, Memory.get_withProgram_of_mem fits hk]
  · intro i hi hout
    rw [getElem_bytes, getElem_bytes, Memory.get_withProgram_of_not_mem fits hout]

end State

namespace Machine

variable (m : ChipEight.Machine)

theorem powerOn_eq_ok (random : Generator) :
    powerOn random = .ok (ofMachine (.powerOn random)) := by
  simp only [powerOn, State.powerOn_eq_ok, ok_bind, pure_eq_ok]
  rfl

theorem reset_ofMachine : (ofMachine m).reset = .ok (.ofReply m.reset) := by
  simp only [reset, State.powerOn_eq_ok, ok_bind, pure_eq_ok]
  rfl

theorem load_ofMachine (program : List UInt8) :
    (ofMachine m).load program = .ok (.ofReply (m.load program)) := by
  by_cases fits : program.length ≤ programRoom
  · have hstop : addSize programStart program.length = .ok (programStart + program.length) := by
      refine addSize_of_lt ?_
      simp only [programRoom, memorySize, programStart, sizeLimit] at fits ⊢
      omega
    have hmemory : (State.ofState .powerOn).memory = Memory.powerOn.bytes := rfl
    rw [ChipEight.Machine.load_of_le fits]
    simp only [load, Nat.not_lt.mpr fits, if_false, State.powerOn_eq_ok, ok_bind, hstop, hmemory,
      State.copyInto_program fits, pure_eq_ok]
    rfl
  · rw [ChipEight.Machine.load_of_lt (Nat.not_le.mp fits), load, if_pos (Nat.not_le.mp fits)]
    rfl

theorem perform_ofMachine {operation : Operation} {w : Word} {i : Instruction}
    (h : operation.Performs w i) :
    (ofMachine m).perform w operation = .ok (.ofReply (m.perform i)) := by
  have hrun : operation w ⟨(ofMachine m).keys, (ofMachine m).random⟩ (ofMachine m).past.state =
      .ok ((i.execute m.keys m.random m.past.state).map .ofEffect) :=
    h m.keys m.random m.past.state
  rw [perform, hrun, ok_bind]
  cases he : i.execute m.keys m.random m.past.state with
  | error f =>
      rw [ChipEight.Machine.perform_of_error he]
      rfl
  | ok e =>
      have hbeeps : (m.fetched :: e.output).filterMap Output.beep? = e.beep.toList :=
        e.filterMap_beep?_output
      have hframes : (m.fetched :: e.output).filterMap Output.frame? = [] :=
        e.filterMap_frame?_output
      rw [ChipEight.Machine.perform_of_ok he, Reply.ofReply, ChipEight.Reply.beeps,
        ChipEight.Reply.frames, hbeeps, hframes]
      rfl

theorem step_ofMachine : (ofMachine m).step = .ok (.ofReply m.step) := by
  have hfetch : (ofMachine m).state.fetch = .ok m.state.fetch := State.fetch_ofState m.state
  have hrel := Operation.rel_ofWord? m.state.fetch
  generalize hselect : Operation.ofWord? m.state.fetch = selected at hrel
  generalize hdecode : Instruction.ofWord? m.state.fetch = decoded at hrel
  simp only [step, hfetch, ok_bind, hselect]
  cases hrel with
  | none =>
      rw [ChipEight.Machine.step_of_none hdecode]
      rfl
  | some hperforms =>
      rw [ChipEight.Machine.step_of_some hdecode]
      exact perform_ofMachine m hperforms

theorem tick_ofMachine : (ofMachine m).tick = .ofReply m.tick := by
  by_cases h : m.state.screen.stale = true
  · rw [ChipEight.Machine.tick, if_pos h]
    exact if_pos h
  · rw [ChipEight.Machine.tick, if_neg h]
    exact if_neg h

theorem setKey_ofMachine (code : UInt8) (down : Bool) :
    (ofMachine m).setKey code down = .ofReply (m.setKey code down) := by
  simp only [setKey, ChipEight.Machine.setKey]
  cases Keypad.key? code <;> rfl

theorem obey_ofMachine (c : Command) : (ofMachine m).obey c = .ok (.ofReply (m.obey c)) := by
  cases c with
  | load program => exact load_ofMachine m program
  | reset => exact reset_ofMachine m
  | step => exact step_ofMachine m
  | tick => exact congrArg Except.ok (tick_ofMachine m)
  | press code => exact congrArg Except.ok (setKey_ofMachine m code true)
  | release code => exact congrArg Except.ok (setKey_ofMachine m code false)

theorem replies_ofMachine (commands : List Command) :
    (ofMachine m).replies commands = .ok ((m.replies commands).map .ofReply) := by
  induction commands generalizing m with
  | nil => rfl
  | cons c rest ih =>
      have hrest : (Reply.ofReply (m.obey c)).machine.replies rest =
          .ok (((m.obey c).machine.replies rest).map .ofReply) := ih (m.obey c).machine
      simp only [replies, obey_ofMachine, ok_bind, hrest, pure_eq_ok]
      rfl

/-- Whatever the commands are, none of them traps, and the replies are those of the machine. -/
theorem session_never_traps (random : Generator) (commands : List Command) :
    session random commands =
      .ok (((ChipEight.Machine.powerOn random).replies commands).map .ofReply) := by
  simp only [session, powerOn_eq_ok, ok_bind, replies_ofMachine]

end Machine

end ChipEight.Trapping
