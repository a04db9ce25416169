import ChipEight.Proofs.Instruction.Table
import ChipEight.Proofs.Machine.Commands
import ChipEight.Proofs.Memory.Wrapping
import ChipEight.Proofs.Memory.Window

namespace ChipEight

/-!
# What a step sees of memory

A step reads the word it fetches and what a sprite or a load takes, and it writes what a
store or the decimal digits cover. A byte it does not read has no influence on it, and
so none on a run that never reads it.
-/

namespace Instruction

/-- How many bytes are read from where the index register points. -/
def readLength : Instruction → Nat
  | .draw _ _ rows => rows.val
  | .restore x => x.val + 1
  | _ => 0

/-- How many bytes are written to where the index register points. -/
def writeLength : Instruction → Nat
  | .storeDigits _ => 3
  | .save x => x.val + 1
  | _ => 0

theorem writeLength_of_not_accesses {i : Instruction} (h : ¬i.Accesses) : i.writeLength = 0 := by
  cases i with
  | storeDigits x => exact absurd trivial h
  | save x => exact absurd trivial h
  | _ => rfl

theorem writeLength_le (i : Instruction) : i.writeLength ≤ 16 := by
  cases i with
  | storeDigits x => exact (by decide : 3 ≤ 16)
  | save x => exact x.isLt
  | _ => exact Nat.zero_le 16

end Instruction

namespace State

/-- The cells a step reads: the word and what the instruction reads of memory. -/
def Reads (s : State) (c : Fin 4096) : Prop :=
  Memory.Window s.counter.toNat 2 c ∨
    ∃ i, s.fetch.Encodes i ∧ Memory.Window s.index.toNat i.readLength c

/-- The cells a step writes. -/
def Writes (s : State) (c : Fin 4096) : Prop :=
  ∃ i, s.fetch.Encodes i ∧ Memory.Window s.index.toNat i.writeLength c

theorem reads_iff {s : State} {i : Instruction} (hi : Instruction.ofWord? s.fetch = some i)
    (c : Fin 4096) :
    s.Reads c ↔ Memory.Window s.counter.toNat 2 c ∨ Memory.Window s.index.toNat i.readLength c := by
  simp only [Reads, ← Instruction.ofWord?_eq_some_iff, hi, Option.some.injEq, exists_eq_left']

theorem writes_iff {s : State} {i : Instruction} (hi : Instruction.ofWord? s.fetch = some i)
    (c : Fin 4096) : s.Writes c ↔ Memory.Window s.index.toNat i.writeLength c := by
  simp only [Writes, ← Instruction.ofWord?_eq_some_iff, hi, Option.some.injEq, exists_eq_left']

theorem not_writes_of_none {s : State} (hi : Instruction.ofWord? s.fetch = none) (c : Fin 4096) :
    ¬s.Writes c := by
  simp only [Writes, ← Instruction.ofWord?_eq_some_iff, hi, reduceCtorEq, false_and, exists_false,
    not_false_eq_true]

/-- Replace one byte of memory. -/
def poke (s : State) (c : Fin 4096) (b : UInt8) : State := { s with memory := s.memory.set c b }

theorem fetch_poke (s : State) {c : Fin 4096} (h : ¬s.Reads c) (b : UInt8) :
    (s.poke c b).fetch = s.fetch := by
  have hw : ¬Memory.Window s.counter.toNat 2 c := fun hw => h (Or.inl hw)
  have hhigh := Memory.read_set_of_not_window (m := s.memory) hw (k := 0) (by decide) b
  have hlow := Memory.read_set_of_not_window (m := s.memory) hw (k := 1) (by decide) b
  have hzero : s.counter + UInt16.ofNat 0 = s.counter := UInt16.add_zero _
  rw [hzero] at hhigh
  exact congrArg₂ Word.ofBytes hhigh hlow

theorem draw_poke {s : State} {c : Fin 4096} {rows : Fin 16}
    (h : ¬Memory.Window s.index.toNat rows.val c) (x y : Reg) (b : UInt8) :
    (s.poke c b).draw x y rows = (s.draw x y rows).poke c b := by
  have hsprite : (s.poke c b).memory.readList (s.poke c b).index rows.val =
      s.memory.readList s.index rows.val := Memory.readList_set_of_not_window h b
  unfold draw
  rw [hsprite]
  rfl

theorem loadRegs_poke {s : State} {c : Fin 4096} {x : Reg}
    (h : ¬Memory.Window s.index.toNat (x.val + 1) c) (b : UInt8) :
    (s.poke c b).loadRegs x = (s.loadRegs x).poke c b := by
  have hregs (k : Reg) :
      (if k.val ≤ x.val then (s.poke c b).memory.read (s.index + UInt16.ofNat k.val)
        else (s.poke c b).reg k) =
      if k.val ≤ x.val then s.memory.read (s.index + UInt16.ofNat k.val) else s.reg k := by
    split
    · exact Memory.read_set_of_not_window h (Nat.lt_succ_of_le ‹_›) b
    · rfl
  have hindex : (s.poke c b).index = s.index := rfl
  simp only [loadRegs, hindex, hregs]
  rfl

end State

namespace Effect

def poke (e : Effect) (c : Fin 4096) (b : UInt8) : Effect := { e with state := e.state.poke c b }

end Effect

namespace Instruction

/-- Storing in a window that covers the cell makes up for the replacement. -/
theorem ok_store_poke (s : State) (bytes : List UInt8) (fits : bytes.length ≤ 4096)
    (random : Generator) (c : Fin 4096) (b : UInt8) :
    (.ok { state := { s.poke c b with memory := (s.poke c b).memory.writeList s.index bytes },
           random } : Except Fault Effect) =
      .ok (if Memory.Window s.index.toNat bytes.length c then
        { state := { s with memory := s.memory.writeList s.index bytes }, random }
      else Effect.poke { state := { s with memory := s.memory.writeList s.index bytes }, random }
        c b) := by
  congr 1
  split
  · exact congrArg (fun m => ({ state := { s with memory := m }, random } : Effect))
      (Memory.writeList_set_of_window fits ‹_› b)
  · exact congrArg (fun m => ({ state := { s with memory := m }, random } : Effect))
      (Memory.writeList_set_of_not_window fits ‹_› b)

theorem writeLength_of_execute_error {i : Instruction} {keys : Keypad} {random : Generator}
    {s : State} {f : Fault} (h : i.execute keys random s = .error f) : i.writeLength = 0 := by
  rcases (execute_eq_error_iff i keys random s f).mp h with ⟨rfl, _⟩ | ⟨⟨target, rfl⟩, _⟩ <;> rfl

theorem execute_poke (i : Instruction) {s : State} {c : Fin 4096}
    (h : ¬Memory.Window s.index.toNat i.readLength c) (keys : Keypad) (random : Generator)
    (b : UInt8) :
    i.execute keys random (s.poke c b) =
      (i.execute keys random s).map fun e =>
        if Memory.Window s.index.toNat i.writeLength c then e else e.poke c b := by
  by_cases ha : i.Accesses
  · cases i with
    | draw x y rows =>
        simp only [execute, State.draw_poke h, writeLength, Memory.not_window_zero, if_false]
        rfl
    | restore x =>
        simp only [execute, State.loadRegs_poke h, writeLength, Memory.not_window_zero, if_false]
        rfl
    | storeDigits x =>
        have hlen : (decimalDigits (s.reg x)).length = 3 := rfl
        exact ok_store_poke s _ (hlen ▸ by decide) random c b
    | save x =>
        have hlen := s.length_regsUpTo x
        have hstore := ok_store_poke s (s.regsUpTo x) (by omega) random c b
        rw [hlen] at hstore
        exact hstore
    | _ => exact ha.elim
  · have hnone : ¬Memory.Window s.index.toNat i.writeLength c := by
      rw [writeLength_of_not_accesses ha]
      exact Memory.not_window_zero _ c
    simp only [if_neg hnone]
    exact execute_mapParts (p := id) (q := id) (r := fun m => m.set c b) (fun _ => rfl)
      (fun _ => rfl) (fun h => absurd h ha) keys random s

end Instruction

namespace Machine

def poke (m : Machine) (c : Fin 4096) (b : UInt8) : Machine :=
  { m with state := m.state.poke c b }

end Machine

namespace Reply

def poke (r : Reply) (c : Fin 4096) (b : UInt8) : Reply :=
  { r with machine := r.machine.poke c b }

end Reply

namespace Machine

variable {m : Machine} {c : Fin 4096}

theorem fetched_poke (h : ¬m.state.Reads c) (b : UInt8) : (m.poke c b).fetched = m.fetched := by
  have hfetch : (m.poke c b).state.fetch = m.state.fetch := m.state.fetch_poke h b
  rw [fetched, hfetch]
  rfl

/-- A step that does not read a byte either writes over it or leaves it replaced. -/
theorem step_poke (h : ¬m.state.Reads c) (b : UInt8) :
    m.state.Writes c ∧ (m.poke c b).step = m.step ∨
      ¬m.state.Writes c ∧ (m.poke c b).step = m.step.poke c b := by
  have hfetch : (m.poke c b).state.fetch = m.state.fetch := m.state.fetch_poke h b
  have hfetched := fetched_poke h b
  cases hi : Instruction.ofWord? m.state.fetch with
  | none =>
      right
      refine ⟨State.not_writes_of_none hi c, ?_⟩
      rw [step_of_none hi, step_of_none (hfetch ▸ hi)]
      simp only [reject, hfetched, hfetch]
      rfl
  | some i =>
      have hread : ¬Memory.Window m.past.state.index.toNat i.readLength c :=
        fun hw => h ((State.reads_iff hi c).mpr (Or.inr hw))
      have hexec := i.execute_poke hread m.keys m.random b
      rw [step_of_some hi, step_of_some (hfetch ▸ hi), State.writes_iff hi]
      cases he : i.execute m.keys m.random m.past.state with
      | error f =>
          rw [he] at hexec
          right
          rw [perform_of_error he, perform_of_error hexec, hfetched]
          refine ⟨?_, rfl⟩
          rw [Instruction.writeLength_of_execute_error he]
          exact Memory.not_window_zero _ c
      | ok e =>
          have hindex : m.past.state.index = m.state.index := rfl
          rw [he, Except.map, hindex] at hexec
          by_cases hw : Memory.Window m.state.index.toNat i.writeLength c
          · rw [if_pos hw] at hexec
            exact Or.inl ⟨hw, by rw [perform_of_ok he, perform_of_ok hexec, hfetched]; rfl⟩
          · rw [if_neg hw] at hexec
            exact Or.inr ⟨hw, by rw [perform_of_ok he, perform_of_ok hexec, hfetched]; rfl⟩

/-- The same for any command that does not restart the machine. -/
theorem obey_poke (d : Command) (hd : ¬d.Restarts) (h : ¬(d = .step ∧ m.state.Reads c))
    (b : UInt8) :
    (d = .step ∧ m.state.Writes c) ∧ (m.poke c b).obey d = m.obey d ∨
      ¬(d = .step ∧ m.state.Writes c) ∧ (m.poke c b).obey d = (m.obey d).poke c b := by
  by_cases hstep : d = .step
  · subst hstep
    rcases step_poke (not_and.mp h rfl) b with ⟨hw, heq⟩ | ⟨hw, heq⟩
    · exact Or.inl ⟨⟨rfl, hw⟩, heq⟩
    · exact Or.inr ⟨fun hd => hw hd.2, heq⟩
  · have hother := m.obey_mapParts id (fun n => n.set c b) hstep hd
    exact Or.inr ⟨fun hw => hstep hw.1, hother⟩

/-- Whoever only sees what is let out cannot see a byte that is never read. -/
theorem replies_poke {commands : List Command} (hd : ∀ d ∈ commands, ¬d.Restarts)
    (h : ¬m.SomeStep (fun s => s.Reads c) commands) (b : UInt8) :
    ((m.poke c b).replies commands).map (fun r => (r.output, r.result)) =
      (m.replies commands).map fun r => (r.output, r.result) := by
  induction commands generalizing m with
  | nil => rfl
  | cons d rest ih =>
      rw [someStep_cons, not_or] at h
      simp only [replies, List.map_cons]
      rcases obey_poke d (hd d (by simp)) h.1 b with ⟨_, heq⟩ | ⟨_, heq⟩
      · rw [heq]
      · rw [heq]
        exact congrArg _ (ih (fun x hx => hd x (List.mem_cons_of_mem d hx)) h.2)

theorem after_poke {commands : List Command} (hd : ∀ d ∈ commands, ¬d.Restarts)
    (h : ¬m.SomeStep (fun s => s.Reads c) commands) (b : UInt8) :
    m.SomeStep (fun s => s.Writes c) commands ∧ (m.poke c b).after commands = m.after commands ∨
      ¬m.SomeStep (fun s => s.Writes c) commands ∧
        (m.poke c b).after commands = (m.after commands).poke c b := by
  induction commands generalizing m with
  | nil => exact Or.inr ⟨not_someStep_nil _ m, rfl⟩
  | cons d rest ih =>
      rw [someStep_cons, not_or] at h
      rw [someStep_cons, after_cons, after_cons]
      rcases obey_poke d (hd d (by simp)) h.1 b with ⟨hw, heq⟩ | ⟨hw, heq⟩
      · rw [heq]
        exact Or.inl ⟨Or.inl hw, rfl⟩
      · rw [heq]
        rcases ih (fun x hx => hd x (List.mem_cons_of_mem d hx)) h.2 with ⟨hw', heq'⟩ | ⟨hw', heq'⟩
        · exact Or.inl ⟨Or.inr hw', heq'⟩
        · exact Or.inr ⟨not_or.mpr ⟨hw, hw'⟩, heq'⟩

/-- Replacing a byte that a step does not read changes nothing the step lets out, answers or
draws, and leaves the byte replaced unless the step writes it. So it is with a run none of whose
steps reads the byte: it is left replaced unless some step has written it. -/
theorem memory_locality (c : Fin 4096) (b : UInt8) :
    (∀ m : Machine, ¬m.state.Reads c →
      (m.poke c b).step.result = m.step.result ∧ (m.poke c b).step.output = m.step.output ∧
      (m.poke c b).drawnBy .step = m.drawnBy .step ∧
      (m.state.Writes c → (m.poke c b).step.machine = m.step.machine) ∧
      (¬m.state.Writes c → (m.poke c b).step.machine = m.step.machine.poke c b)) ∧
    ∀ (m : Machine) (commands : List Command), (∀ d ∈ commands, ¬d.Restarts) →
      ¬m.SomeStep (fun s => s.Reads c) commands →
      ((m.poke c b).replies commands).map (fun r => (r.output, r.result)) =
        (m.replies commands).map (fun r => (r.output, r.result)) ∧
      (m.SomeStep (fun s => s.Writes c) commands →
        (m.poke c b).after commands = m.after commands) ∧
      (¬m.SomeStep (fun s => s.Writes c) commands →
        (m.poke c b).after commands = (m.after commands).poke c b) := by
  constructor
  · intro m h
    have hstep := step_poke h b
    simp only [drawnBy, obey]
    rcases hstep with ⟨hw, heq⟩ | ⟨hw, heq⟩
    · rw [heq]
      exact ⟨rfl, rfl, rfl, fun _ => rfl, fun hn => absurd hw hn⟩
    · rw [heq]
      exact ⟨rfl, rfl, rfl, fun hn => absurd hn hw, fun _ => rfl⟩
  · intro m commands hd h
    refine ⟨replies_poke hd h b, ?_, ?_⟩
    · intro hw
      exact (after_poke hd h b).elim And.right fun hn => absurd hw hn.1
    · intro hn
      exact (after_poke hd h b).elim (fun hw => absurd hw.1 hn) And.right

/-- The word stores two registers, and so writes over the byte that was replaced. -/
theorem memory_locality_of_save :
    let m := ((powerOn ⟨Vector.replicate 8 0, 0⟩).load [0xF1, 0x55]).machine
    let commands : List Command := [.step, .tick]
    ¬m.state.Reads 1 ∧ m.state.Writes 1 ∧ (∀ d ∈ commands, ¬d.Restarts) ∧
      ¬m.SomeStep (fun s => s.Reads 1) commands ∧ m.SomeStep (fun s => s.Writes 1) commands ∧
      (m.poke 1 0x99).step.machine = m.step.machine ∧
      (m.poke 1 0x99).after commands = m.after commands := by
  intro m commands
  have hi : Instruction.ofWord? m.state.fetch = some (.save 1) := by decide +kernel
  have hreads : ¬m.state.Reads 1 := by
    rw [State.reads_iff hi]
    decide +kernel
  have hwrites : m.state.Writes 1 := by
    rw [State.writes_iff hi]
    decide +kernel
  have hd : ∀ d ∈ commands, ¬d.Restarts := by simp [commands, Command.Restarts]
  have hnever : ¬m.SomeStep (fun s => s.Reads 1) commands := by
    simp [commands, someStep_cons, not_someStep_nil, hreads]
  have hsome : m.SomeStep (fun s => s.Writes 1) commands := ⟨[], [.tick], rfl, hwrites⟩
  obtain ⟨hstep, hrun⟩ := memory_locality 1 0x99
  exact ⟨hreads, hwrites, hd, hnever, hsome, (hstep m hreads).2.2.2.1 hwrites,
    (hrun m commands hd hnever).2.1 hsome⟩

end Machine

end ChipEight
